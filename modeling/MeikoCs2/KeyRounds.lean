import MeikoCs2.Retries
import MeikoCs2.Keystrokes
import MeikoCs2.Canping
import MeikoCs2.ConsoleStream

/-! The writer of a cancon that is connected to a node: the batches of
characters that it takes from the keyboard, each sent until it is acknowledged,
and where the newest packet can be. -/

namespace MeikoCs2

theorem Prog.bind_assoc {Op : Type} {Res : Op → Type} {α β γ : Type} (t : Prog Res α)
    (f : α → Prog Res β) (g : β → Prog Res γ) :
    (t.bind f).bind g = t.bind fun a => (f a).bind g := by
  induction t with
  | pure a => rfl
  | op o k ih => exact congrArg (Prog.op o) (funext ih)

def keyReq (c : Config) : CanHeaderExt := loadExtCh c.stack.ext.xpriority .dat 0 c.targetCh

/-- The writer sends `buf`, with `k` tries left after this one. -/
def keyTry (c : Config) (buf : List Byte) (bufs : List (List Byte)) (k : Nat) (ack : CanDat) :
    CanProg Int :=
  Prog.bind (datLoop c buf k ack) fun _ => writerLoop c bufs

def keyWait (c : Config) (buf : List Byte) (bufs : List (List Byte)) (k : Nat) (ack : CanDat) :
    CanProg Int :=
  .op (.waitforAcknak (keyReq c) ack) fun r =>
    match k with
    | 0 => writerLoop c bufs
    | k + 1 => if r.1 = .ack then writerLoop c bufs else keyTry c buf bufs k r.2

theorem writerLoop_cons (c : Config) (buf : List Byte) (bufs : List (List Byte)) :
    writerLoop c (buf :: bufs) = keyTry c buf bufs (maxRetries - 1) 0 := by
  exact Prog.bind_assoc (datLoop c buf (maxRetries - 1) 0) (fun _ => .pure ())
    fun _ => writerLoop c bufs

theorem keyTry_eq (c : Config) (buf : List Byte) (bufs : List (List Byte)) (k : Nat)
    (ack : CanDat) : keyTry c buf bufs k ack =
      .op (.canSend (keyReq c) (some (copyBytes buf c.stack.dat)) buf.length) fun _ =>
        keyWait c buf bufs k ack := by
  cases k with
  | zero => rfl
  | succ k =>
    have hr : ∀ r : Acknak × CanDat,
        Prog.bind (if r.1 = .ack then pure r else datLoop c buf k r.2 : CanProg (Acknak × CanDat))
          (fun _ => writerLoop c bufs) =
        if r.1 = .ack then writerLoop c bufs else keyTry c buf bufs k r.2 := by
      intro r
      split_ifs <;> rfl
    exact congrArg (Prog.op _) (funext fun _ => congrArg (Prog.op _) (funext hr))

theorem keyTry_ne_pure (c : Config) (buf : List Byte) (bufs : List (List Byte)) (k : Nat)
    (ack : CanDat) : keyTry c buf bufs k ack ≠ pure 0 := by
  rw [keyTry_eq]
  exact fun h => by cases h

/-- The batches that a writer still has before it, if each wait from here on is
answered with an ACK. The writer makes no calls but these two. -/
def batchesLeft : CanProg Int → Nat
  | .op (.canSend _ _ _) k => batchesLeft (k ())
  | .op (.waitforAcknak _ dat) k => batchesLeft (k (.ack, dat)) + 1
  | .op _ _ => 0
  | .pure _ => 0

/-- The number of the batch that the writer is at. -/
def batchOf (bufs : List (List Byte)) (t : CanProg Int) : Nat := bufs.length - batchesLeft t

theorem batchesLeft_keyWait (c : Config) (buf : List Byte) (bufs : List (List Byte)) (k : Nat)
    (ack : CanDat) :
    batchesLeft (keyWait c buf bufs k ack) = batchesLeft (writerLoop c bufs) + 1 := by
  cases k <;> rfl

theorem batchesLeft_keyTry (c : Config) (buf : List Byte) (bufs : List (List Byte)) (k : Nat)
    (ack : CanDat) :
    batchesLeft (keyTry c buf bufs k ack) = batchesLeft (writerLoop c bufs) + 1 := by
  rw [keyTry_eq]
  exact batchesLeft_keyWait c buf bufs k ack

theorem batchesLeft_writerLoop (c : Config) (bufs : List (List Byte)) :
    batchesLeft (writerLoop c bufs) = bufs.length := by
  induction bufs with
  | nil => rfl
  | cons buf bufs ih => rw [writerLoop_cons, batchesLeft_keyTry, ih, List.length_cons]

theorem batchOf_keyWait {bufs : List (List Byte)} {i : Nat} {b : List Byte} (h : bufs[i]? = some b)
    (c : Config) (buf : List Byte) (k : Nat) (ack : CanDat) :
    batchOf bufs (keyWait c buf (bufs.drop (i + 1)) k ack) = i := by
  have hi := (List.getElem?_eq_some_iff.mp h).1
  rw [batchOf, batchesLeft_keyWait, batchesLeft_writerLoop, List.length_drop]
  omega

theorem batchOf_keyTry {bufs : List (List Byte)} {i : Nat} {b : List Byte} (h : bufs[i]? = some b)
    (c : Config) (buf : List Byte) (k : Nat) (ack : CanDat) :
    batchOf bufs (keyTry c buf (bufs.drop (i + 1)) k ack) = i := by
  rw [batchOf, batchesLeft_keyTry, ← batchesLeft_keyWait c buf _ k ack]
  exact batchOf_keyWait h c buf k ack

variable {P : Type}

/-- The batches that the console of the target has taken, oldest first. -/
def typed (req : CanHeaderExt) (log : List (Event P)) : List (List Byte) :=
  log.filterMap fun
    | .dispatched a m rmt _ =>
      if a = req.addr ∧ m.pkt.ext.object = req.object ∧ m.pkt.ext.type = .dat ∧
          canconUnconnected rmt = false then
        some (payload m.pkt)
      else none
    | _ => none

def isBuffered (req : CanHeaderExt) (e : AckPkt P) : Bool := isOurAcknak e.ext req

/-- Where the newest packet and its answer are while the writer waits: on the
wire, in the ring of the file, or in the buffer of acknowledgements. -/
inductive KeyTrip (req : CanHeaderExt) (buf : List Byte) (i failed : Nat) (timeouts : List Nat) :
    List Nat → List (Msg P) → List (Msg P) → List (AckPkt P) → Prop where
  | out {reached : List Nat} {m : Msg P} (h : Tally maxRetries i failed timeouts reached)
      (he : m.pkt.ext = req) (hd : payload m.pkt = buf) :
      KeyTrip req buf i failed timeouts reached [m] [] []
  | back {before : List Nat} {m : Msg P} (h : Tally maxRetries i failed timeouts before)
      (hp : pertains req m = true) (ht : m.pkt.ext.type = .ack) :
      KeyTrip req buf i failed timeouts (before ++ [i]) [m] [] []
  | arrived {before : List Nat} {m : Msg P} (h : Tally maxRetries i failed timeouts before)
      (hp : pertains req m = true) (ht : m.pkt.ext.type = .ack) :
      KeyTrip req buf i failed timeouts (before ++ [i]) [] [m] []
  | buffered {before : List Nat} {e : AckPkt P} (h : Tally maxRetries i failed timeouts before)
      (ht : e.ext.type = .ack) : KeyTrip req buf i failed timeouts (before ++ [i]) [] [] [e]
  | gone {reached : List Nat} (h : Tried maxRetries i failed timeouts reached) :
      KeyTrip req buf i failed timeouts reached [] [] []

namespace KeyTrip

variable {req : CanHeaderExt} {buf : List Byte} {i failed : Nat}
  {timeouts reached : List Nat} {ws qs : List (Msg P)} {es : List (AckPkt P)}

theorem tried (h : KeyTrip req buf i failed timeouts reached ws qs es) :
    Tried maxRetries i failed timeouts reached := by
  cases h with
  | out h _ _ => exact h.attempted
  | back h _ _ => exact h.arrived
  | arrived h _ _ => exact h.arrived
  | buffered h _ => exact h.arrived
  | gone h => exact h

theorem lost (h : KeyTrip req buf i failed timeouts reached ws qs es) :
    KeyTrip (P := P) req buf i failed timeouts reached [] [] [] := .gone h.tried

/-- The packet that is on the wire is the batch, or its acknowledgement. -/
theorem at_wire (h : KeyTrip req buf i failed timeouts reached ws qs es) {as bs : List (Msg P)}
    {m : Msg P} (hw : ws = as ++ m :: bs) : as = [] ∧ bs = [] ∧ qs = [] ∧ es = [] ∧
      ((Tally maxRetries i failed timeouts reached ∧ m.pkt.ext = req ∧ payload m.pkt = buf) ∨
        ∃ before, reached = before ++ [i] ∧ Tally maxRetries i failed timeouts before ∧
          m.pkt.ext.type = .ack) := by
  cases h with
  | out h he hd =>
    obtain ⟨h₁, h₂, rfl⟩ := eq_single_append hw
    exact ⟨h₁, h₂, rfl, rfl, .inl ⟨h, he, hd⟩⟩
  | back h hp ht =>
    obtain ⟨h₁, h₂, rfl⟩ := eq_single_append hw
    exact ⟨h₁, h₂, rfl, rfl, .inr ⟨_, rfl, h, ht⟩⟩
  | _ => exact absurd hw.symm (by simp)

theorem at_fdq (h : KeyTrip req buf i failed timeouts reached ws qs es) {as bs : List (Msg P)}
    {m : Msg P} (hq : qs = as ++ m :: bs) : as = [] ∧ bs = [] ∧ ws = [] ∧ es = [] ∧
      ∃ before, reached = before ++ [i] ∧ Tally maxRetries i failed timeouts before ∧
        m.pkt.ext.type = .ack := by
  cases h with
  | arrived h hp ht =>
    obtain ⟨h₁, h₂, rfl⟩ := eq_single_append hq
    exact ⟨h₁, h₂, rfl, rfl, _, rfl, h, ht⟩
  | _ => exact absurd hq.symm (by simp)

theorem at_ackbuf (h : KeyTrip req buf i failed timeouts reached ws qs es) {e : AckPkt P}
    (he : es.getLast? = some e) : ws = [] ∧ qs = [] ∧
      ∃ before, reached = before ++ [i] ∧ Tally maxRetries i failed timeouts before ∧
        e.ext.type = .ack := by
  cases h with
  | buffered h ht =>
    obtain rfl : _ = e := Option.some.inj he
    exact ⟨rfl, rfl, _, rfl, h, ht⟩
  | _ => cases he

/-- The buffer of acknowledgements is emptied. -/
theorem flushed (h : KeyTrip req buf i failed timeouts reached ws qs es) :
    KeyTrip req buf i failed timeouts reached ws qs [] := by
  cases h with
  | out h he hd => exact .out h he hd
  | back h hp ht => exact .back h hp ht
  | arrived h hp ht => exact .arrived h hp ht
  | buffered h _ => exact .gone h.arrived
  | gone h => exact .gone h

end KeyTrip

/-- Where the writer stands with its batches. Between two tries nothing of them
is under way. -/
inductive KeyRound (c : Config) (bufs : List (List Byte)) (timeouts reached : List Nat) :
    CanProg Int → List (Msg P) → List (Msg P) → List (AckPkt P) → Prop where
  | finished (h : Tally maxRetries bufs.length 0 timeouts reached) :
      KeyRound c bufs timeouts reached (pure 0) [] [] []
  | trying {i k failed : Nat} {buf : List Byte} {ack : CanDat} (hb : bufs[i]? = some buf)
      (hk : failed + k + 1 = maxRetries) (h : Tally maxRetries i failed timeouts reached) :
      KeyRound c bufs timeouts reached (keyTry c buf (bufs.drop (i + 1)) k ack) [] [] []
  | waiting {i k failed : Nat} {buf : List Byte} {ack : CanDat} {ws qs : List (Msg P)}
      {es : List (AckPkt P)} (hb : bufs[i]? = some buf) (hk : failed + k + 1 = maxRetries)
      (h : KeyTrip (keyReq c) buf i failed timeouts reached ws qs es) :
      KeyRound c bufs timeouts reached (keyWait c buf (bufs.drop (i + 1)) k ack) ws qs es

namespace KeyRound

variable {c : Config} {bufs : List (List Byte)} {timeouts reached : List Nat}
  {t : CanProg Int} {ws qs : List (Msg P)} {es : List (AckPkt P)}

/-- The writer goes on with batch `i`. -/
theorem next {i : Nat} (h : Tally maxRetries i 0 timeouts reached) (hi : i ≤ bufs.length) :
    KeyRound (P := P) c bufs timeouts reached (writerLoop c (bufs.drop i)) [] [] [] := by
  by_cases hlt : i < bufs.length
  · rw [List.drop_eq_getElem_cons hlt, writerLoop_cons]
    exact .trying (List.getElem?_eq_getElem hlt) rfl h
  · obtain rfl : i = bufs.length := by omega
    rw [List.drop_length]
    exact .finished h

theorem send (h : KeyRound c bufs timeouts reached t ws qs es) {ext : CanHeaderExt}
    {dat : Option CanDat} {len : Nat} {k : Unit → CanProg Int}
    (ht : t = .op (.canSend ext dat len) k) :
    ∃ i buf failed j ack, bufs[i]? = some buf ∧ failed + j + 1 = maxRetries ∧
      Tally maxRetries i failed timeouts reached ∧ ext = keyReq c ∧
      dat = some (copyBytes buf c.stack.dat) ∧ len = buf.length ∧
      k () = keyWait c buf (bufs.drop (i + 1)) j ack ∧ ws = [] ∧ qs = [] ∧ es = [] := by
  cases h with
  | finished _ => cases ht
  | trying hb hk h =>
    rw [keyTry_eq, Prog.op.injEq, CanOp.canSend.injEq] at ht
    obtain ⟨⟨rfl, rfl, rfl⟩, hc⟩ := ht
    exact ⟨_, _, _, _, _, hb, hk, h, rfl, rfl, rfl, by rw [← eq_of_heq hc], rfl, rfl, rfl⟩
  | waiting _ _ _ => cases ht

/-- The wait for batch `i`, and what the writer does after it. -/
theorem wait (h : KeyRound c bufs timeouts reached t ws qs es) {target : CanHeaderExt}
    {dat : CanDat} {k : Acknak × CanDat → CanProg Int}
    (ht : t = .op (.waitforAcknak target dat) k) :
    ∃ i buf failed, bufs[i]? = some buf ∧ batchOf bufs t = i ∧ target = keyReq c ∧
      KeyTrip (keyReq c) buf i failed timeouts reached ws qs es ∧
      (∀ d, k (.ack, d) = writerLoop c (bufs.drop (i + 1))) ∧
      ((failed + 1 = maxRetries ∧ ∀ r, k r = writerLoop c (bufs.drop (i + 1))) ∨
        ∃ j, failed + 1 + j + 1 = maxRetries ∧
          ∀ d, k (.timedout, d) = keyTry c buf (bufs.drop (i + 1)) j d) := by
  cases h with
  | finished _ => cases ht
  | trying _ _ _ => rw [keyTry_eq] at ht; cases ht
  | @waiting i j failed buf ack _ _ _ hb hk h =>
    have hat := batchOf_keyWait hb c buf j ack
    rw [keyWait, Prog.op.injEq, CanOp.waitforAcknak.injEq] at ht
    obtain ⟨⟨rfl, rfl⟩, hc⟩ := ht
    obtain rfl := eq_of_heq hc
    cases j with
    | zero => exact ⟨i, buf, failed, hb, hat, rfl, h, fun _ => rfl, .inl ⟨hk, fun _ => rfl⟩⟩
    | succ j =>
      refine ⟨i, buf, failed, hb, hat, rfl, h, fun _ => rfl, .inr ⟨j, by omega, fun d => ?_⟩⟩
      have hne : Acknak.timedout ≠ .ack := by decide
      exact if_neg hne

theorem no_other (h : KeyRound c bufs timeouts reached t ws qs es) {o : CanOp}
    {k : CanOp.Res o → CanProg Int} (ht : t = .op o k) :
    (∃ ext dat len, o = .canSend ext dat len) ∨ ∃ target dat, o = .waitforAcknak target dat := by
  cases h with
  | finished _ => cases ht
  | trying _ _ _ =>
    rw [keyTry_eq, Prog.op.injEq] at ht
    exact .inl ⟨_, _, _, ht.1.symm⟩
  | waiting _ _ _ =>
    rw [keyWait, Prog.op.injEq] at ht
    exact .inr ⟨_, _, ht.1.symm⟩

/-- While something is under way the writer waits for it. -/
theorem under_way (h : KeyRound c bufs timeouts reached t ws qs es) :
    (ws = [] ∧ qs = [] ∧ es = []) ∨
    ∃ i buf failed j ack, bufs[i]? = some buf ∧ failed + j + 1 = maxRetries ∧
      t = keyWait c buf (bufs.drop (i + 1)) j ack ∧
      KeyTrip (keyReq c) buf i failed timeouts reached ws qs es := by
  cases h with
  | finished _ => exact .inl ⟨rfl, rfl, rfl⟩
  | trying _ _ _ => exact .inl ⟨rfl, rfl, rfl⟩
  | waiting hb hk h => exact .inr ⟨_, _, _, _, _, hb, hk, rfl, h⟩

/-- Something of what was under way is lost. -/
theorem lost (h : KeyRound c bufs timeouts reached t ws qs es) :
    KeyRound (P := P) c bufs timeouts reached t [] [] [] := by
  cases h with
  | finished h => exact .finished h
  | trying hb hk h => exact .trying hb hk h
  | waiting hb hk h => exact .waiting hb hk h.lost

theorem flushed (h : KeyRound c bufs timeouts reached t ws qs es) :
    KeyRound c bufs timeouts reached t ws qs [] := by
  cases h with
  | finished h => exact .finished h
  | trying hb hk h => exact .trying hb hk h
  | waiting hb hk h => exact .waiting hb hk h.flushed

theorem drop_wire (h : KeyRound c bufs timeouts reached t ws qs es) {as bs : List (Msg P)}
    {m : Msg P} (hw : ws = as ++ m :: bs) : KeyRound c bufs timeouts reached t (as ++ bs) qs es := by
  rcases h.under_way with ⟨rfl, -, -⟩ | ⟨i, buf, failed, j, ack, hb, hk, rfl, htrip⟩
  · exact absurd hw.symm (by simp)
  · obtain ⟨rfl, rfl, rfl, rfl, -⟩ := htrip.at_wire hw
    exact h.lost

theorem drop_fdq (h : KeyRound c bufs timeouts reached t ws qs es) {as bs : List (Msg P)}
    {m : Msg P} (hq : qs = as ++ m :: bs) : KeyRound c bufs timeouts reached t ws (as ++ bs) es := by
  rcases h.under_way with ⟨-, rfl, -⟩ | ⟨i, buf, failed, j, ack, hb, hk, rfl, htrip⟩
  · exact absurd hq.symm (by simp)
  · obtain ⟨rfl, rfl, rfl, rfl, -⟩ := htrip.at_fdq hq
    exact h.lost

/-- What has arrived when the writer stands there. -/
theorem sorted (h : KeyRound c bufs timeouts reached t ws qs es) :
    reached.Pairwise (· ≤ ·) := by
  cases h with
  | finished h => exact h.sorted
  | trying _ _ h => exact h.sorted
  | waiting _ _ h => exact h.tried.sorted

theorem lt (h : KeyRound c bufs timeouts reached t ws qs es) :
    ∀ j ∈ reached, j < bufs.length := by
  intro j hj
  cases h with
  | finished h => exact h.lt hj
  | trying hb _ h => exact Nat.lt_of_le_of_lt (h.le hj) (List.getElem?_eq_some_iff.mp hb).1
  | waiting hb _ h => exact Nat.lt_of_le_of_lt (h.tried.le hj) (List.getElem?_eq_some_iff.mp hb).1

/-- A batch arrives once, and once more for each of its timeouts. -/
theorem paid (h : KeyRound c bufs timeouts reached t ws qs es) :
    reached.Subperm (timeouts ++ List.range bufs.length) := by
  have hrange : ∀ {n : Nat}, n ≤ bufs.length →
      (timeouts ++ List.range n).Subperm (timeouts ++ List.range bufs.length) := fun hn =>
    ((List.range_sublist.mpr hn).append_left timeouts).subperm
  cases h with
  | finished h => exact h.paid
  | trying hb _ h => exact h.paid.trans (hrange (List.getElem?_eq_some_iff.mp hb).1.le)
  | waiting hb _ h => exact h.tried.paid.trans (hrange (List.getElem?_eq_some_iff.mp hb).1)

/-- A batch that the writer is done with and that has not arrived. -/
theorem givenUp (h : KeyRound c bufs timeouts reached t ws qs es) {j : Nat}
    (hj : j < batchOf bufs t) (hn : j ∉ reached) : timeouts.count j = maxRetries := by
  cases h with
  | finished h => exact h.givenUp j hj hn
  | trying hb _ h =>
    rw [batchOf_keyTry hb] at hj
    exact h.givenUp j hj hn
  | waiting hb _ h =>
    rw [batchOf_keyWait hb] at hj
    exact h.tried.givenUp hj hn

theorem exact (h : KeyRound c bufs [] reached t ws qs es) :
    ∃ n ≤ bufs.length, reached = List.range n ∧ (t = pure 0 → n = bufs.length) := by
  have hret : 0 < maxRetries := by decide
  cases h with
  | finished h => exact ⟨_, Nat.le_refl _, h.exact hret, fun _ => rfl⟩
  | trying hb _ h =>
    have hi := (List.getElem?_eq_some_iff.mp hb).1
    exact ⟨_, hi.le, h.exact hret, fun hd => absurd hd (keyTry_ne_pure _ _ _ _ _)⟩
  | waiting hb _ h =>
    have hi := (List.getElem?_eq_some_iff.mp hb).1
    rcases h.tried.exact hret with he | he
    · exact ⟨_, hi.le, he, fun hd => by cases hd⟩
    · exact ⟨_, hi, he, fun hd => by cases hd⟩

end KeyRound

end MeikoCs2
