import MeikoCs2.Protocols

/-! Stealing a console. `heist_connection` asks for it, polls up to five times
whether it is free, and then, if the tries are used up, disconnects it itself.
It looks at the number of tries and not at what the last poll found. -/

namespace MeikoCs2

abbrev CanTrace (σ : Type) := σ × List (Sigma CanOp.Res)

def IsDisconnSend : CanOp → Prop
  | .canSend ext _ _ => ext.object = Canobj.consoleDisconn ∧ ext.type = .wo
  | _ => False

/-- A wait that ended with the ACK of a CONSOLE_DISCONN. -/
def IsAckedDisconn : Sigma CanOp.Res → Prop
  | ⟨.waitforAcknak target _, r⟩ =>
    target.object = Canobj.consoleDisconn ∧ target.type = .wo ∧ r.1 = .ack
  | _ => False

section Heist

variable {σ : Type} (f : (o : CanOp) → σ → CanOp.Res o × σ) (c : Config)

/-- What `heist_connection` sends before it polls. -/
def askFirst (oldcon : CanHeaderExt) : CanProg Acknak := do
  let r ← sendForceDisconnectNb oldcon
  if r = .ack then pure .ack else sendDisconnect c oldcon

def pollOnce (s : CanTrace σ) : (Acknak × CanHeaderExt) × CanTrace σ :=
  (sendConnectRo c).exec (Prog.traced f) s

def afterPolls : Nat → CanTrace σ → CanTrace σ
  | 0, s => s
  | n + 1, s => afterPolls n (pollOnce f c s).2

def pollReply (n : Nat) (s : CanTrace σ) : Acknak × CanHeaderExt :=
  (pollOnce f c (afterPolls f c n s)).1

def connectedAt (n : Nat) (s : CanTrace σ) : Prop :=
  canconUnconnected (pollReply f c n s).2 = false

instance (n : Nat) (s : CanTrace σ) : Decidable (connectedAt f c n s) :=
  inferInstanceAs (Decidable (_ = _))

/-- Every poll that is made, as long as the console is connected, is
acknowledged. -/
def PollsAcked (s : CanTrace σ) : Prop :=
  ∀ n < 5, (∀ m < n, connectedAt f c m s) → (pollReply f c n s).1 = .ack

theorem exec_heistConnection (oldcon : CanHeaderExt) (s : CanTrace σ) :
    (heistConnection c oldcon).exec (Prog.traced f) s =
      if ((askFirst c oldcon).exec (Prog.traced f) s).1 = .ack then
        (heistPoll c).exec (Prog.traced f) ((askFirst c oldcon).exec (Prog.traced f) s).2
      else (-1, ((askFirst c oldcon).exec (Prog.traced f) s).2) := by
  simp only [heistConnection, askFirst, Prog.exec_bind]
  split_ifs with h₁ h₂ h₃
  · rfl
  · exact absurd rfl h₂
  · rw [Prog.exec_bind, if_pos h₃]
  · rw [Prog.exec_bind, if_neg h₃]
    rfl

/-- The loop ends with the first poll that finds the console free, or with the
last one. -/
theorem exec_heistLoop {k n : Nat} {s : CanTrace σ} (hk : k ≤ 4) (hn : n ≤ k)
    (hack : ∀ m ≤ n, (pollReply f c m s).1 = .ack) (hcon : ∀ m < n, connectedAt f c m s)
    (hend : n = k ∨ ¬ connectedAt f c n s) :
    (heistLoop c k).exec (Prog.traced f) s =
      (some ((pollReply f c n s).2, 5 - (k - n)), afterPolls f c (n + 1) s) := by
  induction n generalizing k s with
  | zero =>
    have ha : (pollOnce f c s).1.1 = .ack := hack 0 (Nat.le_refl 0)
    cases k with
    | zero =>
      rw [heistLoop, Prog.exec_bind]
      change Prog.exec _ (if (pollOnce f c s).1.1 = .ack then _ else _) _ = _
      rw [if_pos ha]
      rfl
    | succ k =>
      have hu : canconUnconnected (pollOnce f c s).1.2 = true := by
        rcases hend with he | he
        · cases he
        · exact Bool.of_not_eq_false he
      rw [heistLoop, Prog.exec_bind]
      change Prog.exec _ (if (pollOnce f c s).1.1 = .ack then
        if canconUnconnected (pollOnce f c s).1.2 = true then _ else _ else _) _ = _
      rw [if_pos ha, if_pos hu, show 5 - (k + 1 - 0) = 4 - k by omega]
      rfl
  | succ n ih =>
    have ha : (pollOnce f c s).1.1 = .ack := hack 0 (Nat.zero_le _)
    have hu : ¬ canconUnconnected (pollOnce f c s).1.2 = true := by
      have h0 : canconUnconnected (pollOnce f c s).1.2 = false := hcon 0 (Nat.succ_pos n)
      rw [h0]
      decide
    cases k with
    | zero => exact absurd hn (Nat.not_succ_le_zero n)
    | succ k =>
      rw [heistLoop, Prog.exec_bind]
      change Prog.exec _ (if (pollOnce f c s).1.1 = .ack then
        if canconUnconnected (pollOnce f c s).1.2 = true then _ else _ else _) _ = _
      rw [if_pos ha, if_neg hu, show k + 1 - (n + 1) = k - n by omega]
      exact ih (by omega) (by omega) (fun m hm => hack (m + 1) (by omega))
        (fun m hm => hcon (m + 1) (by omega)) (hend.imp_left Nat.succ.inj)

theorem exec_heistPoll {n : Nat} {s : CanTrace σ} (hn : n ≤ 4)
    (hack : ∀ m ≤ n, (pollReply f c m s).1 = .ack) (hcon : ∀ m < n, connectedAt f c m s)
    (hend : n = 4 ∨ ¬ connectedAt f c n s) :
    (heistPoll c).exec (Prog.traced f) s =
      if n = 4 then
        let r := (sendDisconnect c (pollReply f c n s).2).exec (Prog.traced f)
          (afterPolls f c (n + 1) s)
        (if r.1 = .ack then 0 else -1, r.2)
      else (0, afterPolls f c (n + 1) s) := by
  have hloop := exec_heistLoop f c (Nat.le_refl 4) hn hack hcon hend
  rw [heistPoll, Prog.exec_bind, hloop]
  by_cases h4 : n = 4
  · simp only [h4, if_true, Nat.sub_self, Nat.sub_zero, Prog.exec_bind]
    split_ifs <;> rfl
  · have h5 : ¬ 5 - (4 - n) = 5 := by omega
    simp only [h4, h5, if_false]
    rfl

theorem pollOnce_log (s : CanTrace σ) :
    ∃ evs, (pollOnce f c s).2.2 = s.2 ++ evs ∧ ∀ e ∈ evs, ¬ IsDisconnSend e.1 := by
  have hro : OpsOnly (fun o => ¬ IsDisconnSend o) (sendConnectRo c) := by
    refine OpsOnly.bind (opsOnly_mysend ?_ (fun _ => id) _ _) fun _ => trivial
    exact fun h => absurd (show Canobj.consoleConnect = Canobj.consoleDisconn from h.1) (by decide)
  exact hro.exec_traced (fun _ _ h => h) s

theorem afterPolls_log (n : Nat) (s : CanTrace σ) :
    ∃ evs, (afterPolls f c n s).2 = s.2 ++ evs ∧ ∀ e ∈ evs, ¬ IsDisconnSend e.1 := by
  induction n generalizing s with
  | zero => exact ⟨[], (List.append_nil _).symm, by simp⟩
  | succ n ih =>
    obtain ⟨evs, hevs, hno⟩ := pollOnce_log f c s
    obtain ⟨evs', hevs', hno'⟩ := ih (pollOnce f c s).2
    refine ⟨evs ++ evs', ?_, fun e he => ?_⟩
    · rw [afterPolls, hevs', hevs, List.append_assoc]
    · exact (List.mem_append.mp he).elim (hno e) (hno' e)

/-- One send and the wait for its answer, as the record shows them. -/
def tryOnce (target : CanHeaderExt) (dat : Option CanDat) (len : Nat) (ack : CanDat)
    (s : CanTrace σ) : (Acknak × CanDat) × CanTrace σ :=
  let t := Prog.traced f (.canSend target dat len) s
  Prog.traced f (.waitforAcknak target ack) t.2

theorem exec_mysendLoop_zero (target : CanHeaderExt) (dat : Option CanDat) (len : Nat)
    (ack : CanDat) (s : CanTrace σ) :
    (mysendLoop target dat len 0 ack).exec (Prog.traced f) s = tryOnce f target dat len ack s := rfl

theorem exec_mysendLoop_succ (target : CanHeaderExt) (dat : Option CanDat) (len k : Nat)
    (ack : CanDat) (s : CanTrace σ) :
    (mysendLoop target dat len (k + 1) ack).exec (Prog.traced f) s =
      let t := tryOnce f target dat len ack s
      if t.1.1 = .ack then t
      else (mysendLoop target dat len k t.1.2).exec (Prog.traced f) t.2 := by
  change Prog.exec _ (if (tryOnce f target dat len ack s).1.1 = .ack then
    pure (tryOnce f target dat len ack s).1 else _) _ = _
  simp only
  split_ifs
  · rfl
  · rfl

theorem tryOnce_log {target : CanHeaderExt} (ht : target.object = Canobj.consoleDisconn)
    (hw : target.type = .wo) (dat : Option CanDat) (len : Nat) (ack : CanDat) (s : CanTrace σ) :
    ∃ evs, (tryOnce f target dat len ack s).2.2 = s.2 ++ evs ∧
      (∃ e ∈ evs, IsDisconnSend e.1) ∧
      ((tryOnce f target dat len ack s).1.1 = .ack ↔ ∃ e ∈ evs, IsAckedDisconn e) := by
  refine ⟨[⟨.canSend target dat len, ()⟩,
    ⟨.waitforAcknak target ack, (tryOnce f target dat len ack s).1⟩], ?_, ?_, ?_⟩
  · exact List.append_assoc s.2 [_] [_]
  · exact ⟨_, List.mem_cons_self, ht, hw⟩
  · constructor
    · intro h
      exact ⟨_, List.mem_cons_of_mem _ List.mem_cons_self, ht, hw, h⟩
    · rintro ⟨e, he, hack⟩
      rcases List.mem_cons.mp he with rfl | he
      · exact absurd hack id
      · rw [List.mem_singleton.mp he] at hack
        exact hack.2.2

/-- A CONSOLE_DISCONN is sent at once, and the result says whether one was
acknowledged. -/
theorem mysendLoop_log {target : CanHeaderExt} (ht : target.object = Canobj.consoleDisconn)
    (hw : target.type = .wo) (dat : Option CanDat) (len k : Nat) (ack : CanDat)
    (s : CanTrace σ) :
    ∃ evs, ((mysendLoop target dat len k ack).exec (Prog.traced f) s).2.2 = s.2 ++ evs ∧
      (∃ e ∈ evs, IsDisconnSend e.1) ∧
      (((mysendLoop target dat len k ack).exec (Prog.traced f) s).1.1 = .ack ↔
        ∃ e ∈ evs, IsAckedDisconn e) := by
  induction k generalizing ack s with
  | zero =>
    rw [exec_mysendLoop_zero]
    exact tryOnce_log f ht hw dat len ack s
  | succ k ih =>
    obtain ⟨evs, hevs, hsent, hack⟩ := tryOnce_log f ht hw dat len ack s
    rw [exec_mysendLoop_succ]
    by_cases h : (tryOnce f target dat len ack s).1.1 = .ack
    · rw [if_pos h]
      exact ⟨evs, hevs, hsent, hack⟩
    · obtain ⟨evs', hevs', -, hack'⟩ :=
        ih (tryOnce f target dat len ack s).1.2 (tryOnce f target dat len ack s).2
      rw [if_neg h]
      refine ⟨evs ++ evs', by rw [hevs', hevs, List.append_assoc], ?_, ?_⟩
      · obtain ⟨e, he, hd⟩ := hsent
        exact ⟨e, List.mem_append_left _ he, hd⟩
      · rw [hack']
        constructor
        · rintro ⟨e, he, hd⟩
          exact ⟨e, List.mem_append_right _ he, hd⟩
        · rintro ⟨e, he, hd⟩
          rcases List.mem_append.mp he with he | he
          · exact absurd (hack.mpr ⟨e, he, hd⟩) h
          · exact ⟨e, he, hd⟩

theorem sendDisconnect_log (cons : CanHeaderExt) (s : CanTrace σ) :
    ∃ evs, ((sendDisconnect c cons).exec (Prog.traced f) s).2.2 = s.2 ++ evs ∧
      (∃ e ∈ evs, IsDisconnSend e.1) ∧
      (((sendDisconnect c cons).exec (Prog.traced f) s).1 = .ack ↔
        ∃ e ∈ evs, IsAckedDisconn e) := by
  rw [sendDisconnect, Prog.exec_bind]
  exact mysendLoop_log f rfl rfl (some cons.extDat) 4 (maxRetries - 1) 0 s

def asked (oldcon : CanHeaderExt) (s : CanTrace σ) : Acknak × CanTrace σ :=
  (askFirst c oldcon).exec (Prog.traced f) s

def heist (oldcon : CanHeaderExt) (s : CanTrace σ) : Int × CanTrace σ :=
  (heistConnection c oldcon).exec (Prog.traced f) s

/-- After the first request: a poll that finds the console free ends the theft
without a further CONSOLE_DISCONN, and if none does, the theft succeeds exactly
if one sent after the last poll is acknowledged. -/
structure HeistRight (oldcon : CanHeaderExt) (s : CanTrace σ) : Prop where
  freed : ∀ n < 5, (∀ m < n, connectedAt f c m (asked f c oldcon s).2) →
    ¬ connectedAt f c n (asked f c oldcon s).2 →
    (heist f c oldcon s).1 = 0 ∧
      ∃ evs, (heist f c oldcon s).2.2 = (asked f c oldcon s).2.2 ++ evs ∧
        ∀ e ∈ evs, ¬ IsDisconnSend e.1
  held : (∀ n < 5, connectedAt f c n (asked f c oldcon s).2) →
    ∃ evs, (heist f c oldcon s).2.2 = (afterPolls f c 5 (asked f c oldcon s).2).2 ++ evs ∧
      ((heist f c oldcon s).1 = 0 ↔ ∃ e ∈ evs, IsAckedDisconn e)

variable {f c} {oldcon : CanHeaderExt} {s : CanTrace σ}

/-- The theft after `n` polls that found the console connected. -/
theorem heist_after (hask : (asked f c oldcon s).1 = .ack)
    (hpolls : PollsAcked f c (asked f c oldcon s).2) {n : Nat} (hn : n ≤ 4)
    (hcon : ∀ m < n, connectedAt f c m (asked f c oldcon s).2)
    (hend : n = 4 ∨ ¬ connectedAt f c n (asked f c oldcon s).2) :
    heist f c oldcon s =
      if n = 4 then
        let r := (sendDisconnect c (pollReply f c n (asked f c oldcon s).2).2).exec
          (Prog.traced f) (afterPolls f c (n + 1) (asked f c oldcon s).2)
        (if r.1 = .ack then 0 else -1, r.2)
      else (0, afterPolls f c (n + 1) (asked f c oldcon s).2) := by
  have hack : ∀ m ≤ n, (pollReply f c m (asked f c oldcon s).2).1 = .ack :=
    fun m hm => hpolls m (by omega) fun l hl => hcon l (by omega)
  have hstart : heist f c oldcon s =
      (heistPoll c).exec (Prog.traced f) (asked f c oldcon s).2 := by
    rw [heist, exec_heistConnection]
    exact if_pos hask
  rw [hstart]
  exact exec_heistPoll f c hn hack hcon hend

/-- The theft goes right unless it is the fifth poll that finds the console
free. -/
theorem heistRight_iff (hask : (asked f c oldcon s).1 = .ack)
    (hpolls : PollsAcked f c (asked f c oldcon s).2) :
    HeistRight f c oldcon s ↔
      ¬ ((∀ m < 4, connectedAt f c m (asked f c oldcon s).2) ∧
        ¬ connectedAt f c 4 (asked f c oldcon s).2) := by
  constructor
  · rintro h ⟨hcon, hfree⟩
    have hrun := heist_after hask hpolls (Nat.le_refl 4) hcon (.inl rfl)
    rw [if_pos rfl] at hrun
    obtain ⟨-, evs, hevs, hno⟩ := h.freed 4 (by decide) hcon hfree
    obtain ⟨evs₁, hpoll, -⟩ := afterPolls_log f c 5 (asked f c oldcon s).2
    obtain ⟨evs₂, hlog, ⟨e, he, hd⟩, -⟩ := sendDisconnect_log f c
      (pollReply f c 4 (asked f c oldcon s).2).2 (afterPolls f c 5 (asked f c oldcon s).2)
    have heq : evs = evs₁ ++ evs₂ := by
      rw [hrun, hlog, hpoll, List.append_assoc] at hevs
      exact (List.append_cancel_left hevs).symm
    exact hno e (heq ▸ List.mem_append_right _ he) hd
  · intro hnot
    constructor
    · intro n hn hcon hfree
      have h4 : n ≠ 4 := by
        rintro rfl
        exact hnot ⟨hcon, hfree⟩
      have hrun := heist_after hask hpolls (by omega) hcon (.inr hfree)
      rw [if_neg h4] at hrun
      rw [hrun]
      exact ⟨rfl, afterPolls_log f c (n + 1) _⟩
    · intro hcon
      have hrun := heist_after hask hpolls (Nat.le_refl 4) (fun m hm => hcon m (by omega))
        (.inl rfl)
      rw [if_pos rfl] at hrun
      obtain ⟨evs, hlog, -, hack⟩ := sendDisconnect_log f c
        (pollReply f c 4 (asked f c oldcon s).2).2 (afterPolls f c 5 (asked f c oldcon s).2)
      refine ⟨evs, ?_, ?_⟩
      · rw [hrun]
        exact hlog
      · rw [hrun, ← hack]
        simp

end Heist

/-- A target that answers at once. It says that the console is taken until it
has been asked `n` times, and refuses a disconnect when it is free. -/
def pollTarget (n : Nat) : (o : CanOp) → Nat → CanOp.Res o × Nat
  | .canSend _ _ _, asked => ((), asked)
  | .waitforAcknak target d, asked =>
    if target.object = Canobj.consoleConnect then
      ((.ack, if asked < n then 0 else noConsole.extDat), asked + 1)
    else if target.object = Canobj.consoleDisconn then
      ((if asked < n + 1 then .ack else .nak, d), asked)
    else ((.ack, d), asked)
  | .canRecvAck _, asked => (none, asked)
  | .setConsoleObject _, asked => ((), asked)
  | .getConsoleObject, asked => (noConsole, asked)

def thiefConfig : Config where
  fopt := true
  targetCh := ⟨0, 0, 4⟩
  nodeid := 0
  consobj := 0x100
  resetobj := 0x11
  stack := default

def oldConsole : CanHeaderExt := ⟨0, .dat, 0, 0, 8, 0x101⟩

theorem heistRight_second_poll : HeistRight (pollTarget 1) thiefConfig oldConsole (0, []) := by
  refine (heistRight_iff (by decide) ?_).mpr (by decide)
  unfold PollsAcked
  decide

/-- The fifth poll finds the console free, and the disconnect that is sent all
the same is refused: the theft fails. -/
theorem free_console_not_stolen :
    ¬ ∀ (σ : Type) (f : (o : CanOp) → σ → CanOp.Res o × σ) (c : Config) (oldcon : CanHeaderExt)
      (s : CanTrace σ), (asked f c oldcon s).1 = .ack →
      PollsAcked f c (asked f c oldcon s).2 → HeistRight f c oldcon s := by
  intro h
  have hpolls : PollsAcked (pollTarget 4) thiefConfig
      (asked (pollTarget 4) thiefConfig oldConsole (0, [])).2 := by
    unfold PollsAcked
    decide
  have hr := h Nat (pollTarget 4) thiefConfig oldConsole (0, []) (by decide) hpolls
  have hfree := hr.freed 4 (by decide) (by decide) (by decide)
  exact absurd hfree.1 (by decide)

end MeikoCs2
