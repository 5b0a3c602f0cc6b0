import MeikoCs2.Memory
import MeikoCs2.Packet

/-! The keyboard side of cancon. `tty_reader` takes the keys as `read` hands
them over, one to four at a time, looks for escape sequences at the start of a
line, and offers the rest to `signal_outchars`. Two bytes of history are all it
carries from one read to the next. -/

namespace MeikoCs2

def escapeChar : Byte := 0x26

def iscrnl (c : Byte) : Bool := c == 0x0a || c == 0x0d

inductive TtyCommand where
  | disconnect | help | sendBreak | resetH8
  deriving DecidableEq, Repr

def ttyCommand (c : Byte) : Option TtyCommand :=
  if c = 0x2e then some .disconnect
  else if c = 0x3f then some .help
  else if c = 0x23 then some .sendBreak
  else if c = 0x72 || c = 0x52 then some .resetH8
  else none

/-- The automatic variables of `tty_reader`, with the memory from `outbuf` on.
The indices stored to and the commands executed are recorded. -/
structure TtyReader where
  outbuf : Nat → Byte
  j : Nat
  hist0 : Byte
  hist1 : Byte
  stores : List Nat
  commands : List TtyCommand

namespace TtyReader

def init (outbuf : Nat → Byte) : TtyReader where
  outbuf := outbuf
  j := 0
  hist0 := 0x0d
  hist1 := 0x0d
  stores := []
  commands := []

def put (c : Byte) (s : TtyReader) : TtyReader :=
  { s with outbuf := Function.update s.outbuf s.j c, j := s.j + 1, stores := s.stores ++ [s.j] }

/-- An escape character at the start of a line waits for the next byte. -/
def held (s : TtyReader) : Bool := iscrnl s.hist0 && s.hist1 == escapeChar

def takeByte (b : Byte) (s : TtyReader) : TtyReader :=
  let s₁ :=
    if s.held then
      match ttyCommand b with
      | some k => { s with commands := s.commands ++ [k] }
      | none => put b (put escapeChar s)
    else if b ≠ escapeChar || !iscrnl s.hist1 then put b s
    else s
  { s₁ with hist0 := s.hist1, hist1 := b }

def takeBytes (buf : List Byte) (s : TtyReader) : TtyReader :=
  buf.foldl (fun s b => s.takeByte b) s

/-- One round of the loop: the bytes offered to `signal_outchars`. -/
def round (buf : List Byte) (s : TtyReader) : TtyReader × List Byte :=
  let s₁ := takeBytes buf { s with j := 0 }
  (s₁, cells s₁.outbuf 0 s₁.j)

def run : List (List Byte) → TtyReader → TtyReader × List Byte
  | [], s => (s, [])
  | buf :: bufs, s =>
    let r := s.round buf
    let t := run bufs r.1
    (t.1, r.2 ++ t.2)

end TtyReader

/-- The keys with the escape sequences taken out, and the commands that were
taken out, where the flag says that a line starts. A last escape character
may still become a command. -/
def escapes : Bool → List Byte → List Byte × List TtyCommand
  | _, [] => ([], [])
  | start, [b] => if start ∧ b = escapeChar then ([], []) else ([b], [])
  | start, b :: c :: bs =>
    if start ∧ b = escapeChar then
      match ttyCommand c with
      | some k => ((escapes false bs).1, k :: (escapes false bs).2)
      | none => (b :: c :: (escapes (iscrnl c) bs).1, (escapes (iscrnl c) bs).2)
    else (b :: (escapes (iscrnl b) (c :: bs)).1, (escapes (iscrnl b) (c :: bs)).2)

theorem iscrnl_of_ttyCommand {c : Byte} {k : TtyCommand} (h : ttyCommand c = some k) :
    iscrnl c = false := by
  revert h k
  revert c
  decide

theorem escapes_cons {start : Bool} {b : Byte} (h : ¬ (start = true ∧ b = escapeChar))
    (bs : List Byte) :
    escapes start (b :: bs) = (b :: (escapes (iscrnl b) bs).1, (escapes (iscrnl b) bs).2) := by
  cases bs with
  | nil => simp [escapes, h]
  | cons c bs => rw [escapes, if_neg h]

namespace TtyReader

/-- What is left of a stream: the byte that is held, and the bytes not read. -/
def rest (s : TtyReader) (bs : List Byte) : List Byte := if s.held then escapeChar :: bs else bs

/-- Where the rest of the stream begins, a line starts. -/
def atStart (s : TtyReader) : Bool := s.held || iscrnl s.hist1

def out (s : TtyReader) : List Byte := cells s.outbuf 0 s.j

theorem out_put (c : Byte) (s : TtyReader) : (s.put c).out = s.out ++ [c] := by
  have h := cells_update s.outbuf 0 s.j c
  rw [Nat.zero_add] at h
  exact h

/-- What is to come of a stream in the state `s`. -/
def toCome (s : TtyReader) (bs : List Byte) : List Byte × List TtyCommand :=
  escapes s.atStart (s.rest bs)

/-- The split of a stream at a byte: what the byte puts out or executes, and
what is to come. -/
structure Splits (s : TtyReader) (b : Byte) (bs : List Byte) : Prop where
  out : (s.takeByte b).out ++ ((s.takeByte b).toCome bs).1 = s.out ++ (s.toCome (b :: bs)).1
  commands : (s.takeByte b).commands ++ ((s.takeByte b).toCome bs).2 =
    s.commands ++ (s.toCome (b :: bs)).2

theorem splits_held {s : TtyReader} (h : s.held = true) (b : Byte) (bs : List Byte) :
    s.Splits b bs := by
  obtain ⟨-, h₁⟩ : iscrnl s.hist0 = true ∧ s.hist1 = escapeChar := by simpa [held] using h
  have hnext : (s.takeByte b).held = false := by
    have hc : iscrnl escapeChar = false := rfl
    simp [held, takeByte, h₁, hc]
  have hstart : (s.takeByte b).atStart = iscrnl b := by
    rw [atStart, hnext]
    rfl
  have hcome : (s.takeByte b).toCome bs = escapes (iscrnl b) bs := by
    simp only [toCome, hstart, rest, hnext, Bool.false_eq_true, if_false]
  have hcome' : s.toCome (b :: bs) = escapes true (escapeChar :: b :: bs) := by
    simp only [toCome, atStart, rest, h, Bool.true_or, if_true]
  cases hk : ttyCommand b with
  | some k =>
    have hs : (s.takeByte b).out = s.out ∧ (s.takeByte b).commands = s.commands ++ [k] := by
      simp [takeByte, h, hk, TtyReader.out]
    have he : escapes true (escapeChar :: b :: bs) =
        ((escapes false bs).1, k :: (escapes false bs).2) := by
      simp [escapes, hk]
    constructor
    · rw [hs.1, hcome, hcome', he, iscrnl_of_ttyCommand hk]
    · rw [hs.2, hcome, hcome', he, iscrnl_of_ttyCommand hk, List.append_assoc]
      rfl
  | none =>
    have hs : (s.takeByte b).out = (put b (put escapeChar s)).out ∧
        (s.takeByte b).commands = s.commands := by
      simp [takeByte, h, hk, TtyReader.out, put]
    have he : escapes true (escapeChar :: b :: bs) =
        (escapeChar :: b :: (escapes (iscrnl b) bs).1, (escapes (iscrnl b) bs).2) := by
      simp [escapes, hk]
    constructor
    · rw [hs.1, out_put, out_put, hcome, hcome', he]
      simp
    · rw [hs.2, hcome, hcome', he]

theorem splits_of_not_held {s : TtyReader} (h : s.held = false) (b : Byte) (bs : List Byte) :
    s.Splits b bs := by
  have hcome' : s.toCome (b :: bs) = escapes (iscrnl s.hist1) (b :: bs) := by
    simp only [toCome, atStart, rest, h, Bool.false_or, Bool.false_eq_true, if_false]
  by_cases hb : b = escapeChar ∧ iscrnl s.hist1 = true
  · -- the byte is held: nothing happens but that the history moves on
    obtain ⟨rfl, h₁⟩ := hb
    have hnext : (s.takeByte escapeChar).held = true := by simp [held, takeByte, h₁]
    have hs : (s.takeByte escapeChar).out = s.out ∧
        (s.takeByte escapeChar).commands = s.commands := by
      simp [takeByte, h, h₁, TtyReader.out]
    have hcome : (s.takeByte escapeChar).toCome bs = escapes true (escapeChar :: bs) := by
      simp only [toCome, atStart, rest, hnext, Bool.true_or, if_true]
    exact ⟨by rw [hs.1, hcome, hcome', h₁], by rw [hs.2, hcome, hcome', h₁]⟩
  · have hput : (b ≠ escapeChar || !iscrnl s.hist1) = true := by
      by_cases hc : b = escapeChar
      · have h₁ : iscrnl s.hist1 = false := Bool.eq_false_iff.mpr fun h₁ => hb ⟨hc, h₁⟩
        simp [h₁]
      · simp [hc]
    have hnext : (s.takeByte b).held = false := by
      have hn : (iscrnl s.hist1 && b == escapeChar) = false := by
        rw [Bool.and_eq_false_imp]
        intro h₁
        exact beq_eq_false_iff_ne.mpr fun hc => hb ⟨hc, h₁⟩
      exact hn
    have hs : (s.takeByte b).out = (put b s).out ∧ (s.takeByte b).commands = s.commands := by
      simp only [takeByte, h, hput, Bool.false_eq_true, if_false, if_true]
      exact ⟨rfl, rfl⟩
    have hcome : (s.takeByte b).toCome bs = escapes (iscrnl b) bs := by
      simp only [toCome, atStart, rest, hnext, Bool.false_or, Bool.false_eq_true, if_false]
      rfl
    have he := @escapes_cons (iscrnl s.hist1) b (fun hc => hb ⟨hc.2, hc.1⟩) bs
    constructor
    · rw [hs.1, out_put, hcome, hcome', he]
      simp
    · rw [hs.2, hcome, hcome', he]

theorem splits (s : TtyReader) (b : Byte) (bs : List Byte) : s.Splits b bs := by
  cases h : s.held with
  | true => exact splits_held h b bs
  | false => exact splits_of_not_held h b bs

theorem takeBytes_splits (buf bs : List Byte) (s : TtyReader) :
    (s.takeBytes buf).out ++ ((s.takeBytes buf).toCome bs).1 = s.out ++ (s.toCome (buf ++ bs)).1 ∧
      (s.takeBytes buf).commands ++ ((s.takeBytes buf).toCome bs).2 =
        s.commands ++ (s.toCome (buf ++ bs)).2 := by
  induction buf generalizing s with
  | nil => exact ⟨rfl, rfl⟩
  | cons b buf ih =>
    have hb := s.splits b (buf ++ bs)
    obtain ⟨hout, hcmd⟩ := ih (s.takeByte b)
    exact ⟨hout.trans hb.out, hcmd.trans hb.commands⟩

theorem toCome_nil (s : TtyReader) : s.toCome [] = ([], []) := by
  unfold toCome rest
  cases h : s.held with
  | true => simp [atStart, h, escapes]
  | false => rfl

theorem run_escapes (bufs : List (List Byte)) (s : TtyReader) :
    (s.run bufs).2 = (s.toCome bufs.flatten).1 ∧
      (s.run bufs).1.commands = s.commands ++ (s.toCome bufs.flatten).2 := by
  induction bufs generalizing s with
  | nil =>
    rw [List.flatten_nil, toCome_nil]
    exact ⟨rfl, (List.append_nil _).symm⟩
  | cons buf bufs ih =>
    obtain ⟨hout, hcmd⟩ := takeBytes_splits buf bufs.flatten { s with j := 0 }
    obtain ⟨ihout, ihcmd⟩ := ih (s.round buf).1
    refine ⟨?_, ?_⟩
    · rw [run, ihout]
      exact hout
    · rw [run, ihcmd]
      exact hcmd

theorem takeByte_stores (b : Byte) (s : TtyReader) :
    (s.takeByte b).j ≤ s.j + 2 ∧ ∀ i ∈ (s.takeByte b).stores, i ∈ s.stores ∨ i < s.j + 2 := by
  have hone : ∀ c, (s.put c).j = s.j + 1 ∧ ∀ i ∈ (s.put c).stores, i ∈ s.stores ∨ i = s.j := by
    simp [put]
  have htwo : ∀ c d, ((s.put c).put d).j = s.j + 2 ∧
      ∀ i ∈ ((s.put c).put d).stores, i ∈ s.stores ∨ i = s.j ∨ i = s.j + 1 := by
    simp [put]
  unfold takeByte
  simp only
  split_ifs
  · cases ttyCommand b with
    | some k => exact ⟨Nat.le_add_right _ _, fun i hi => .inl hi⟩
    | none =>
      refine ⟨Nat.le_of_eq (htwo escapeChar b).1, fun i hi => ?_⟩
      exact ((htwo escapeChar b).2 i hi).imp_right fun h => by omega
  · refine ⟨Nat.le_succ_of_le (Nat.le_of_eq (hone b).1), fun i hi => ?_⟩
    exact ((hone b).2 i hi).imp_right fun h => by omega
  · exact ⟨Nat.le_add_right _ _, fun i hi => .inl hi⟩

theorem takeBytes_stores (buf : List Byte) (s : TtyReader) :
    ∀ i ∈ (s.takeBytes buf).stores, i ∈ s.stores ∨ i < s.j + 2 * buf.length := by
  induction buf generalizing s with
  | nil => exact fun i hi => .inl hi
  | cons b buf ih =>
    intro i hi
    obtain ⟨hj, hb⟩ := s.takeByte_stores b
    rw [List.length_cons]
    rcases ih (s.takeByte b) i hi with hi | hi
    · rcases hb i hi with hi | hi
      · exact .inl hi
      · exact .inr (by omega)
    · exact .inr (by omega)

theorem run_stores {bufs : List (List Byte)} (h : ∀ buf ∈ bufs, buf.length ≤ 4)
    {s : TtyReader} (hs : ∀ i ∈ s.stores, i < 8) : ∀ i ∈ (s.run bufs).1.stores, i < 8 := by
  induction bufs generalizing s with
  | nil => exact hs
  | cons buf bufs ih =>
    refine ih (fun x hx => h x (List.mem_cons_of_mem _ hx)) fun i hi => ?_
    have hlen := h buf List.mem_cons_self
    rcases takeBytes_stores buf { s with j := 0 } i hi with hi | hi
    · exact hs i hi
    · change i < 0 + 2 * buf.length at hi
      omega

end TtyReader

/-- However `read` splits the keys into reads of one to four, what is offered
to the writer and what is executed is what the escape sequences of the whole
stream say, and `outbuf` is long enough. -/
theorem tty_reader_escapes (outbuf : Nat → Byte) (bufs : List (List Byte))
    (h : ∀ buf ∈ bufs, 1 ≤ buf.length ∧ buf.length ≤ 4) :
    ((TtyReader.init outbuf).run bufs).2 = (escapes true bufs.flatten).1 ∧
      ((TtyReader.init outbuf).run bufs).1.commands = (escapes true bufs.flatten).2 ∧
      (∀ i ∈ ((TtyReader.init outbuf).run bufs).1.stores, i < 8) ∧
      ∀ bufs' : List (List Byte), bufs'.flatten = bufs.flatten →
        ((TtyReader.init outbuf).run bufs').2 = ((TtyReader.init outbuf).run bufs).2 ∧
        ((TtyReader.init outbuf).run bufs').1.commands =
          ((TtyReader.init outbuf).run bufs).1.commands := by
  have hrun : ∀ bufs, ((TtyReader.init outbuf).run bufs).2 = (escapes true bufs.flatten).1 ∧
      ((TtyReader.init outbuf).run bufs).1.commands = (escapes true bufs.flatten).2 :=
    fun bufs => TtyReader.run_escapes bufs (TtyReader.init outbuf)
  refine ⟨(hrun bufs).1, (hrun bufs).2, TtyReader.run_stores (fun x hx => (h x hx).2) ?_, ?_⟩
  · intro i hi
    cases hi
  · intro bufs' hsame
    rw [(hrun bufs').1, (hrun bufs').2, (hrun bufs).1, (hrun bufs).2, hsame]
    exact ⟨rfl, rfl⟩

/-- A reset and a line that starts with an escape character, both cut by the
reads. -/
theorem tty_reader_escapes_cut :
    ((TtyReader.init fun _ => 0).run [[0x26], [0x72, 0x0d, 0x26], [0x26]]).2 =
        [0x0d, 0x26, 0x26] ∧
      ((TtyReader.init fun _ => 0).run [[0x26], [0x72, 0x0d, 0x26], [0x26]]).1.commands =
        [.resetH8] := by
  have h := tty_reader_escapes (fun _ => 0) [[0x26], [0x72, 0x0d, 0x26], [0x26]] (by decide)
  exact ⟨h.1, h.2.1⟩

end MeikoCs2
