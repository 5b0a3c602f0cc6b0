import MeikoCs2.Correlation
import MeikoCs2.Testrw

/-! canping writes a running number to the TESTRW object of the target and is
sent the number before in the answer. One ping is under way at a time. Here are
the program and where its newest ping can be. -/

namespace MeikoCs2

/-- What canping prints behind the answer. -/
inductive PingNote where
  | plain
  | response (got want : CanDat)
  | size (len : Int)
  deriving DecidableEq

def pingNote (seq : CanDat) (type : CanType) (recvSeq : CanDat) (ackLen : Int) : PingNote :=
  if type = .ack ∧ seq ≠ 0 ∧ recvSeq ≠ seq - 1 then .response recvSeq (seq - 1)
  else if ackLen ≠ 4 then .size ackLen
  else .plain

/-- The loop with `count` rounds left. An alarm makes `can_recv_ack` fail with
EINTR, and the round is given up. -/
def pingLoop (req : CanHeaderExt) : Nat → CanDat → Nat → CanProg Int
  | 0, _, responses => pure (if responses > 0 then 0 else 1)
  | count + 1, seq, responses => do
    canSend req (some seq) 4
    let r ← canRecvAck req
    pingLoop req count (seq + 1) (if r.isSome then responses + 1 else responses)

/-- canping waits for the answer to the ping it has sent. -/
def pingWait (req : CanHeaderExt) (count : Nat) (seq : CanDat) (responses : Nat) : CanProg Int := do
  let r ← canRecvAck req
  pingLoop req count (seq + 1) (if r.isSome then responses + 1 else responses)

def pingReq (c : Config) : CanHeaderExt :=
  loadExtCh c.stack.ext.xpriority .wo Canobj.testrw c.targetCh

def canping (c : Config) (count : Nat) : CanProg Int := pingLoop (pingReq c) count 0 0

theorem pingLoop_succ (req : CanHeaderExt) (count : Nat) (seq : CanDat) (responses : Nat) :
    pingLoop req (count + 1) seq responses =
      .op (.canSend req (some seq) 4) fun _ => pingWait req count seq responses := rfl

theorem pingWait_eq (req : CanHeaderExt) (count : Nat) (seq : CanDat) (responses : Nat) :
    pingWait req count seq responses = .op (.canRecvAck req) fun r =>
      pingLoop req count (seq + 1) (if r.isSome then responses + 1 else responses) := rfl

/-- The rounds left can be read off the program. -/
theorem pingWait_inj {req : CanHeaderExt} {count count' : Nat} {seq seq' : CanDat}
    {resp resp' : Nat} (h : pingWait req count seq resp = pingWait req count' seq' resp') :
    count = count' := by
  induction count generalizing count' seq seq' resp resp' with
  | zero =>
    rw [pingWait_eq, pingWait_eq, Prog.op.injEq] at h
    have hn := congrFun (eq_of_heq h.2) none
    cases count' with
    | zero => rfl
    | succ count' => cases hn
  | succ count ih =>
    rw [pingWait_eq, pingWait_eq, Prog.op.injEq] at h
    have hn := congrFun (eq_of_heq h.2) none
    cases count' with
    | zero => cases hn
    | succ count' =>
      rw [pingLoop_succ, pingLoop_succ, Prog.op.injEq] at hn
      rw [ih (congrFun (eq_of_heq hn.2) ())]

/-! The network around it. -/

variable {P : Type}

def pingNum (r : Nat) : CanDat := BitVec.ofNat 32 r

/-- The values written to the object that `req` names, oldest first. -/
def writes (req : CanHeaderExt) (log : List (Event P)) : List CanDat :=
  log.filterMap fun
    | .dispatched a m _ _ =>
      if a = req.addr ∧ m.pkt.ext.object = req.object ∧ m.pkt.ext.type = .wo then some m.pkt.dat
      else none
    | _ => none

def pertains (req : CanHeaderExt) (m : Msg P) : Bool := isOurAcknak m.pkt.ext req

def isAnswer (req : CanHeaderExt) (m : Msg P) : Bool := m.pkt.ext.type.isAcknak && pertains req m

/-- The value left by the pings that reached the target. -/
def lastVal (val : CanDat) (reached : List Nat) : CanDat :=
  ((reached.map pingNum).getLast?).getD val

/-- The answer to ping `r`, sent back by a target that the pings `before` had
reached. -/
structure PingAnswer (req : CanHeaderExt) (val : CanDat) (before : List Nat) (m : Msg P) :
    Prop where
  object : pertains req m = true
  type : m.pkt.ext.type = .ack
  length : m.pkt.can.length = 8
  dat : m.pkt.dat = lastVal val before

/-- Where ping `r` and its answer are while canping waits: what of them is on
the wire and in the ring of the file, and which pings have reached the target. -/
inductive Trip (req : CanHeaderExt) (val : CanDat) (r : Nat) :
    List Nat → List (Msg P) → List (Msg P) → Prop where
  | out {reached : List Nat} {m : Msg P} (h : reached.Sublist (List.range r))
      (he : m.pkt.ext = req) (hd : m.pkt.dat = pingNum r) : Trip req val r reached [m] []
  | back {before : List Nat} {m : Msg P} (h : before.Sublist (List.range r))
      (hm : PingAnswer req val before m) : Trip req val r (before ++ [r]) [m] []
  | arrived {before : List Nat} {m : Msg P} (h : before.Sublist (List.range r))
      (hm : PingAnswer req val before m) : Trip req val r (before ++ [r]) [] [m]
  | gone {reached : List Nat} (h : reached.Sublist (List.range (r + 1))) :
      Trip req val r reached [] []

theorem eq_single_append {α : Type} {x m : α} {as bs : List α} (h : [x] = as ++ m :: bs) :
    as = [] ∧ bs = [] ∧ x = m := by
  cases as with
  | nil =>
    rw [List.nil_append, List.cons.injEq] at h
    exact ⟨rfl, h.2.symm, h.1⟩
  | cons a as =>
    rw [List.cons_append, List.cons.injEq] at h
    exact absurd h.2.symm (by simp)

namespace Trip

variable {req : CanHeaderExt} {val : CanDat} {r : Nat} {reached : List Nat} {ws qs : List (Msg P)}

theorem sublist (h : Trip req val r reached ws qs) : reached.Sublist (List.range (r + 1)) := by
  rw [List.range_succ]
  cases h with
  | out h _ _ => exact h.trans (List.sublist_append_left _ _)
  | back h _ => exact h.append (List.Sublist.refl _)
  | arrived h _ => exact h.append (List.Sublist.refl _)
  | gone h => rwa [List.range_succ] at h

theorem of_gone (h : Trip req val r reached ws qs) : Trip (P := P) req val r reached [] [] :=
  .gone h.sublist

theorem at_wire (h : Trip req val r reached ws qs) {as bs : List (Msg P)} {m : Msg P}
    (hw : ws = as ++ m :: bs) : as = [] ∧ bs = [] ∧ qs = [] ∧
      ((reached.Sublist (List.range r) ∧ m.pkt.ext = req ∧ m.pkt.dat = pingNum r) ∨
        ∃ before, reached = before ++ [r] ∧ before.Sublist (List.range r) ∧
          PingAnswer req val before m) := by
  cases h with
  | out h he hd =>
    obtain ⟨h₁, h₂, rfl⟩ := eq_single_append hw
    exact ⟨h₁, h₂, rfl, .inl ⟨h, he, hd⟩⟩
  | back h hm =>
    obtain ⟨h₁, h₂, rfl⟩ := eq_single_append hw
    exact ⟨h₁, h₂, rfl, .inr ⟨_, rfl, h, hm⟩⟩
  | arrived _ _ => exact absurd hw.symm (by simp)
  | gone _ => exact absurd hw.symm (by simp)

theorem at_fdq (h : Trip req val r reached ws qs) {as bs : List (Msg P)} {m : Msg P}
    (hq : qs = as ++ m :: bs) : as = [] ∧ bs = [] ∧ ws = [] ∧
      ∃ before, reached = before ++ [r] ∧ before.Sublist (List.range r) ∧
        PingAnswer req val before m := by
  cases h with
  | @arrived before x h hm =>
    obtain ⟨h₁, h₂, rfl⟩ := eq_single_append hq
    exact ⟨h₁, h₂, rfl, before, rfl, h, hm⟩
  | _ => exact absurd hq.symm (by simp)

end Trip

/-- No process but `p`, and no node by itself, addresses the object. -/
def Alone (p : P) (req : CanHeaderExt) (log : List (Event P)) : Prop :=
  ∀ o, .sent o ∈ log → isOurAcknak o.pkt.ext req = true → o.sender = some p

theorem Alone.mono {p : P} {req : CanHeaderExt} {log log' : List (Event P)}
    (h : Alone p req log') (hl : log <+: log') : Alone p req log :=
  fun o ho he => h o (hl.subset ho) he

/-- The rounds of canping: between two rounds nothing pertains to the object,
and while it waits there is one ping. -/
inductive PingRound (req : CanHeaderExt) (val : CanDat) (n : Nat) (reached : List Nat) :
    CanProg Int → List (Msg P) → List (Msg P) → Prop where
  | idle {r count resp : Nat} (hn : r + count = n) (h : reached.Sublist (List.range r)) :
      PingRound req val n reached (pingLoop req count (pingNum r) resp) [] []
  | waiting {r count resp : Nat} {ws qs : List (Msg P)} (hn : r + count + 1 = n)
      (h : Trip req val r reached ws qs) :
      PingRound req val n reached (pingWait req count (pingNum r) resp) ws qs

/-- What the run has done for canping, the process `p` with `n` rounds. -/
def PingAt (p : P) (req : CanHeaderExt) (val : CanDat) (n : Nat) (s : Net P) : Prop :=
  ∃ reached t, (s.procs p).threads = [t] ∧ writes req s.log = reached.map pingNum ∧
    (s.nodes req.addr).objVal = lastVal val reached ∧
    PingRound req val n reached t (s.wire.filter (pertains req))
      ((s.procs p).fdq.filter (isAnswer req))

theorem PingAt.congr {p : P} {req : CanHeaderExt} {val : CanDat} {n : Nat} {s u : Net P}
    (h : PingAt p req val n s) (ht : (u.procs p).threads = (s.procs p).threads)
    (hl : writes req u.log = writes req s.log)
    (hv : (u.nodes req.addr).objVal = (s.nodes req.addr).objVal)
    (hw : u.wire.filter (pertains req) = s.wire.filter (pertains req))
    (hq : (u.procs p).fdq.filter (isAnswer req) = (s.procs p).fdq.filter (isAnswer req)) :
    PingAt p req val n u := by
  obtain ⟨reached, t, h₁, h₂, h₃, h₄⟩ := h
  refine ⟨reached, t, ht.trans h₁, hl.trans h₂, hv.trans h₃, ?_⟩
  rwa [hw, hq]

structure Pinging (p : P) (req : CanHeaderExt) (val : CanDat) (n : Nat) (s : Net P) : Prop where
  own : ∀ o, .sent o ∈ s.log → o.sender = some p → o.pkt.ext = req ∧ o.node = (s.procs p).home
  phase : PingAt p req val n s

namespace PingRound

variable {req : CanHeaderExt} {val : CanDat} {n : Nat} {reached : List Nat} {t : CanProg Int}
  {ws qs : List (Msg P)}

theorem send (h : PingRound req val n reached t ws qs) {ext : CanHeaderExt} {dat : Option CanDat}
    {len : Nat} {k : Unit → CanProg Int} (ht : t = .op (.canSend ext dat len) k) :
    ∃ r count resp, r + count + 1 = n ∧ reached.Sublist (List.range r) ∧ ext = req ∧
      dat = some (pingNum r) ∧ len = 4 ∧ k () = pingWait req count (pingNum r) resp ∧
      ws = [] ∧ qs = [] := by
  cases h with
  | @idle r count resp hn h =>
    cases count with
    | zero => cases ht
    | succ count =>
      rw [pingLoop_succ, Prog.op.injEq, CanOp.canSend.injEq] at ht
      obtain ⟨⟨rfl, rfl, rfl⟩, hk⟩ := ht
      exact ⟨r, count, resp, by omega, h, rfl, rfl, rfl, by rw [← eq_of_heq hk], rfl, rfl⟩
  | waiting _ _ => cases ht

theorem recv (h : PingRound req val n reached t ws qs) {ext : CanHeaderExt}
    {k : Option (CanType × CanDat × Int) → CanProg Int} (ht : t = .op (.canRecvAck ext) k) :
    ∃ r count resp, r + count + 1 = n ∧ ext = req ∧ t = pingWait req count (pingNum r) resp ∧
      (∀ a, ∃ resp, k a = pingLoop req count (pingNum (r + 1)) resp) ∧
      Trip req val r reached ws qs := by
  cases h with
  | @idle r count resp hn h =>
    cases count with
    | zero => cases ht
    | succ count => cases ht
  | @waiting r count resp _ _ hn h =>
    have heq := ht
    rw [pingWait_eq, Prog.op.injEq, CanOp.canRecvAck.injEq] at heq
    obtain ⟨rfl, hk⟩ := heq
    have hnum : pingNum r + 1 = pingNum (r + 1) := (BitVec.ofNat_add r 1).symm
    refine ⟨r, count, resp, hn, rfl, rfl, fun a => ?_, h⟩
    rw [← eq_of_heq hk, hnum]
    exact ⟨_, rfl⟩

theorem no_other (h : PingRound req val n reached t ws qs) {o : CanOp}
    {k : CanOp.Res o → CanProg Int} (ht : t = .op o k) :
    (∃ ext dat len, o = .canSend ext dat len) ∨ ∃ ext, o = .canRecvAck ext := by
  cases h with
  | @idle r count resp hn h =>
    cases count with
    | zero => cases ht
    | succ count =>
      rw [pingLoop_succ, Prog.op.injEq] at ht
      exact .inl ⟨_, _, _, ht.1.symm⟩
  | waiting _ _ =>
    rw [pingWait_eq, Prog.op.injEq] at ht
    exact .inr ⟨_, ht.1.symm⟩

end PingRound

section At

variable {req : CanHeaderExt} {val : CanDat} {n : Nat} {reached : List Nat} {t : CanProg Int}
  {ws qs as bs : List (Msg P)} {m : Msg P}

theorem PingRound.at_wire (h : PingRound req val n reached t ws qs) (hw : ws = as ++ m :: bs) :
    ∃ r count resp, r + count + 1 = n ∧ t = pingWait req count (pingNum r) resp ∧
      as = [] ∧ bs = [] ∧ qs = [] ∧ reached.Sublist (List.range (r + 1)) ∧
      ((reached.Sublist (List.range r) ∧ m.pkt.ext = req ∧ m.pkt.dat = pingNum r) ∨
        ∃ before, reached = before ++ [r] ∧ before.Sublist (List.range r) ∧
          PingAnswer req val before m) := by
  cases h with
  | idle _ _ => exact absurd hw.symm (by simp)
  | waiting hn h =>
    obtain ⟨h₁, h₂, h₃, h₄⟩ := h.at_wire hw
    exact ⟨_, _, _, hn, rfl, h₁, h₂, h₃, h.sublist, h₄⟩

theorem PingRound.at_fdq (h : PingRound req val n reached t ws qs) (hq : qs = as ++ m :: bs) :
    ∃ r count resp, r + count + 1 = n ∧ t = pingWait req count (pingNum r) resp ∧
      as = [] ∧ bs = [] ∧ ws = [] ∧ reached.Sublist (List.range (r + 1)) ∧
      ∃ before, reached = before ++ [r] ∧ before.Sublist (List.range r) ∧
        PingAnswer req val before m := by
  cases h with
  | idle _ _ => exact absurd hq.symm (by simp)
  | waiting hn h =>
    obtain ⟨h₁, h₂, h₃, h₄⟩ := h.at_fdq hq
    exact ⟨_, _, _, hn, rfl, h₁, h₂, h₃, h.sublist, h₄⟩

end At

theorem eq_of_single {α : Type} {l : List α} {x y : α} {i : Nat} (hl : l = [x])
    (hi : l[i]? = some y) : i = 0 ∧ x = y := by
  subst hl
  cases i with
  | zero => exact ⟨rfl, Option.some.inj hi⟩
  | succ i => cases hi

section Filter

variable {α : Type} {f : α → Bool} {l : List α} {i : Nat} {m : α}

theorem filter_eraseIdx (h : l[i]? = some m) :
    (f m = false ∧ (l.eraseIdx i).filter f = l.filter f) ∨
    (f m = true ∧ ∃ as bs, l.filter f = as ++ m :: bs ∧ (l.eraseIdx i).filter f = as ++ bs) := by
  obtain ⟨hi, rfl⟩ := List.getElem?_eq_some_iff.mp h
  have hl : l = l.take i ++ l[i] :: l.drop (i + 1) := by
    rw [List.getElem_cons_drop, List.take_append_drop]
  have hf : l.filter f = (l.take i).filter f ++ (l[i] :: l.drop (i + 1)).filter f := by
    rw [← List.filter_append, ← hl]
  rw [List.eraseIdx_eq_take_drop_succ, List.filter_append, hf]
  cases hm : f l[i] with
  | false =>
    rw [List.filter_cons_of_neg (by simp [hm])]
    exact .inl ⟨rfl, rfl⟩
  | true =>
    rw [List.filter_cons_of_pos hm]
    exact .inr ⟨rfl, _, _, rfl, rfl⟩

theorem filter_dropLast (l : List α) :
    l.dropLast.filter f = l.filter f ∨ ∃ x, l.filter f = l.dropLast.filter f ++ [x] := by
  rcases List.eq_nil_or_concat l with rfl | ⟨l', x, rfl⟩
  · exact .inl rfl
  · rw [List.concat_eq_append, List.dropLast_concat, List.filter_append]
    cases hx : f x with
    | false => exact .inl (by simp [hx])
    | true => exact .inr ⟨x, by simp [hx]⟩

theorem filter_append_of_neg {l' : List α} (h : ∀ x ∈ l', f x = false) :
    (l ++ l').filter f = l.filter f := by
  have hn : l'.filter f = [] := List.filter_eq_nil_iff.mpr fun x hx => by simp [h x hx]
  rw [List.filter_append, hn, List.append_nil]

end Filter

theorem writes_append_of {req : CanHeaderExt} {log es : List (Event P)}
    (h : ∀ e ∈ es, ∀ a m r r', e ≠ .dispatched a m r r') :
    writes req (log ++ es) = writes req log := by
  have hn : writes req es = [] := by
    refine List.filterMap_eq_nil_iff.mpr fun e he => ?_
    cases e with
    | dispatched a m r r' => exact absurd rfl (h _ he a m r r')
    | _ => rfl
  rw [writes, List.filterMap_append, ← writes, ← writes, hn, List.append_nil]

theorem objVal_output {s : Net P} {a : Canhostname} {n : Node} (hn : n.objVal = (s.nodes a).objVal)
    (b : Canhostname) : ((s.output a n).nodes b).objVal = (s.nodes b).objVal := by
  have hnodes : ∀ (ps : List CanPacket) (v : Net P),
      (ps.foldl (fun s pkt => s.transmit a none pkt) v).nodes = v.nodes := by
    intro ps
    induction ps with
    | nil => exact fun _ => rfl
    | cons p ps ih => exact fun v => ih _
  rw [Net.output, hnodes]
  change (Function.update s.nodes a n.flush b).objVal = _
  by_cases hb : b = a
  · rw [hb, Function.update_self]
    exact hn
  · rw [Function.update_of_ne hb]

end MeikoCs2
