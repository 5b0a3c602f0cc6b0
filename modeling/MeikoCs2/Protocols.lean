import MeikoCs2.Cancon

/-! What the programs of cancon may do: rules for the retry loop, and which
operations each protocol performs. -/

namespace MeikoCs2

/-- The rule for the retry loop: `I` holds before every try, and an
acknowledged try or the last one ends in `post`. -/
theorem obeys_mysendLoop {σ : Type} {m : Monitor CanOp.Res σ} {I : σ → Prop}
    {post : σ → Acknak × CanDat → Prop} {target : CanHeaderExt} {dat : Option CanDat} {len : Nat}
    (hsend : ∀ s, I s → m.allows s (.canSend target dat len))
    (hwait : ∀ s d, I s →
      m.allows (m.next s (.canSend target dat len) ()) (.waitforAcknak target d))
    (hres : ∀ s d r, I s →
      post (m.next (m.next s (.canSend target dat len) ()) (.waitforAcknak target d) r) r ∧
      (r.1 ≠ .ack →
        I (m.next (m.next s (.canSend target dat len) ()) (.waitforAcknak target d) r)))
    (k : Nat) (ack : CanDat) {s : σ} (hs : I s) :
    Obeys m post s (mysendLoop target dat len k ack) := by
  induction k generalizing ack s with
  | zero => exact ⟨hsend s hs, fun _ => ⟨hwait s ack hs, fun r => (hres s ack r hs).1⟩⟩
  | succ k ih =>
    refine ⟨hsend s hs, fun _ => ⟨hwait s ack hs, fun r => ?_⟩⟩
    have hr := hres s ack r hs
    change Obeys m post _ (if r.1 = .ack then pure r else mysendLoop target dat len k r.2)
    split_ifs with ha
    · exact hr.1
    · exact ih r.2 (hr.2 ha)

def opsOnly (ok : CanOp → Prop) : Monitor CanOp.Res Unit where
  allows _ o := ok o
  next _ _ _ := ()

abbrev OpsOnly {α : Type} (ok : CanOp → Prop) (t : CanProg α) : Prop :=
  Obeys (opsOnly ok) (fun _ _ => True) () t

theorem OpsOnly.bind {α β : Type} {ok : CanOp → Prop} {t : CanProg α} {f : α → CanProg β}
    (h : OpsOnly ok t) (hf : ∀ a, OpsOnly ok (f a)) : OpsOnly ok (t >>= f) :=
  Obeys.bind h fun _ a _ => hf a

theorem OpsOnly.weaken {α : Type} {ok ok' : CanOp → Prop} {t : CanProg α} (h : OpsOnly ok t)
    (hok : ∀ o, ok o → ok' o) : OpsOnly ok' t := by
  induction t with
  | pure a => trivial
  | op o k ih => exact ⟨hok o h.1, fun r => ih r (h.2 r)⟩

theorem opsOnly_mysend {ok : CanOp → Prop} {target : CanHeaderExt} {dat : Option CanDat}
    {len : Nat} (h : ok (.canSend target dat len)) (hw : ∀ d, ok (.waitforAcknak target d))
    (ack : CanDat) (max : Nat) : OpsOnly ok (mysend target dat len ack max) :=
  obeys_mysendLoop (I := fun _ => True) (fun _ _ => h) (fun _ d _ => hw d)
    (fun _ _ _ _ => ⟨trivial, fun _ => trivial⟩) _ ack trivial

def IsTaskOp (c : Config) : CanOp → Prop
  | .canSend ext _ _ => (ext.type = .dat ∨ ext.type = .wo) ∧
    (ext.object = 0 ∨ ext.object = Canobj.brk ∨ ext.object = c.resetobj ∨
      ext.object = Canobj.consoleDisconn)
  | .waitforAcknak _ _ => True
  | .getConsoleObject => True
  | _ => False

theorem opsOnly_task {ok : CanOp → Prop} (c : Config) (h : ∀ o, IsTaskOp c o → ok o) (t : Task) :
    OpsOnly ok (t.prog c) := by
  have hsend : ∀ {target : CanHeaderExt} (dat : Option CanDat) (len : Nat),
      IsTaskOp c (.canSend target dat len) → OpsOnly ok (send target dat len 0) :=
    fun dat len ht => opsOnly_mysend (h _ ht) (fun d => h _ trivial) 0 maxRetries
  cases t with
  | disconnect =>
    have hget : OpsOnly ok getConsoleObject := ⟨h _ trivial, fun _ => trivial⟩
    refine OpsOnly.bind hget fun cons => OpsOnly.bind (OpsOnly.bind (hsend _ _ ?_) ?_) ?_
    · exact ⟨.inr rfl, .inr (.inr (.inr rfl))⟩
    · exact fun _ => trivial
    · exact fun _ => trivial
  | dat buf =>
    refine OpsOnly.bind (OpsOnly.bind (hsend _ _ ?_) ?_) ?_
    · exact ⟨.inl rfl, .inl rfl⟩
    · exact fun _ => trivial
    · exact fun _ => trivial
  | brk =>
    refine OpsOnly.bind (OpsOnly.bind (hsend _ _ ?_) ?_) ?_
    · exact ⟨.inr rfl, .inr (.inl rfl)⟩
    · exact fun _ => trivial
    · exact fun _ => trivial
  | resetH8 =>
    refine OpsOnly.bind (OpsOnly.bind (hsend _ _ ?_) ?_) ?_
    · exact ⟨.inr rfl, .inr (.inr (.inl rfl))⟩
    · exact fun _ => trivial
    · exact fun _ => trivial

def IsLookOp : CanOp → Prop
  | .canSend ext _ _ => (ext.type = .ro ∧ ext.object = Canobj.consoleConnect) ∨
    (ext.type = .wo ∧
      (ext.object = Canobj.consoleDisconn ∨ ext.object = Canobj.forceDisconn))
  | .waitforAcknak _ _ => True
  | _ => False

section Look

variable {ok : CanOp → Prop} (c : Config) (h : ∀ o, IsLookOp o → ok o)

include h

theorem opsOnly_sendConnectRo : OpsOnly ok (sendConnectRo c) :=
  OpsOnly.bind (opsOnly_mysend (h _ (.inl ⟨rfl, rfl⟩)) (fun _ => h _ trivial) _ _) fun _ => trivial

theorem opsOnly_heistConnection (oldcon : CanHeaderExt) :
    OpsOnly ok (heistConnection c oldcon) := by
  have hro := opsOnly_sendConnectRo c h
  have hdis : ∀ cons, OpsOnly ok (sendDisconnect c cons) := fun cons =>
    OpsOnly.bind (opsOnly_mysend (h _ (.inr ⟨rfl, .inl rfl⟩)) (fun _ => h _ trivial) _ _)
      fun _ => trivial
  have hforce : OpsOnly ok (sendForceDisconnectNb oldcon) :=
    OpsOnly.bind (opsOnly_mysend (h _ (.inr ⟨rfl, .inr rfl⟩)) (fun _ => h _ trivial) _ _)
      fun _ => trivial
  have hloop : ∀ k, OpsOnly ok (heistLoop c k) := by
    intro k
    induction k with
    | zero =>
      refine OpsOnly.bind hro fun r => ?_
      split_ifs <;> trivial
    | succ k ih =>
      refine OpsOnly.bind hro fun r => ?_
      split_ifs
      · trivial
      · exact ih
      · trivial
  have hpoll : OpsOnly ok (heistPoll c) := by
    refine OpsOnly.bind (hloop 4) fun r => ?_
    split
    · trivial
    · split_ifs
      · refine OpsOnly.bind (hdis _) fun r => ?_
        split_ifs <;> trivial
      · trivial
  refine OpsOnly.bind hforce fun r => ?_
  split_ifs
  · exact hpoll
  · refine OpsOnly.bind (hdis _) fun r => ?_
    split_ifs
    · exact hpoll
    · trivial

end Look

/-- The connect protocol under a monitor that looking leaves in the state `g`,
given that it obeys for the write. -/
theorem obeys_connectProtocol {σ : Type} {m : Monitor CanOp.Res σ} {g : σ}
    {post : σ → Int → Prop} (c : Config)
    (hlook : ∀ {α : Type} {t : CanProg α}, OpsOnly IsLookOp t → Obeys m (fun g' _ => g' = g) g t)
    (hwrite : Obeys m post g (connectWrite c)) (hfail : post g (-1)) :
    Obeys m post g (connectProtocol c) := by
  refine Obeys.bind (hlook (opsOnly_sendConnectRo c fun _ h => h)) ?_
  rintro _ r rfl
  split_ifs
  · exact hwrite
  · refine Obeys.bind (hlook (opsOnly_heistConnection c (fun _ h => h) _)) ?_
    rintro _ r rfl
    split_ifs
    · exact hfail
    · exact hwrite
  · exact hfail
  · exact hfail

end MeikoCs2
