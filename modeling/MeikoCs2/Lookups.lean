import MeikoCs2.Scanf
import MeikoCs2.Tables

/-! The scanners of /etc/canhosts and /etc/canobj in `can.c`. A file is the
sequence of records that `fgets` returns. -/

namespace MeikoCs2

abbrev bsize : Nat := 255

abbrev maxhostnamelen : Nat := 128

abbrev Record := CString bsize

/-- The cluster, module and node of `struct canhostname`. -/
abbrev CanAddress := BitVec 32 × BitVec 32 × BitVec 32

structure CanhostEntry where
  cluster : BitVec 32
  module : BitVec 32
  node : BitVec 32
  hostname : CString maxhostnamelen
  deriving DecidableEq, Repr

structure CanobjEntry where
  id : BitVec 32
  name : CString maxhostnamelen
  deriving DecidableEq, Repr

/-- `sscanf(canid, "%x,%x,%x", &c, &m, &n)`, when it returns 3. -/
def scanCanid (canid : List Char) : Option CanAddress := do
  let (c, rest) ← scanHex 32 canid
  let rest ← rest.dropPrefix? [',']
  let (m, rest) ← scanHex 32 rest
  let rest ← rest.dropPrefix? [',']
  let (n, _) ← scanHex 32 rest
  return (c, m, n)

/-- `sscanf(buf, "%s %s", canid, hostname)`, when it returns 2. -/
def scanHost (buf : Record) : Except Overrun (Option (CString 255 × CString maxhostnamelen)) :=
  match scanWord buf.chars with
  | none => .ok none
  | some (canid, rest) =>
    match store 255 canid, scanWord rest with
    | .error e, _ => .error e
    | .ok _, none => .ok none
    | .ok canid, some (hostname, _) =>
      match store maxhostnamelen hostname with
      | .error e => .error e
      | .ok hostname => .ok (some (canid, hostname))

/-- One turn of the loop. `found` is what the last match left in `canhost`. -/
def hostbynameTurn (name : List Char) (found : Option CanhostEntry) (buf : Record) :
    Except Overrun (Option CanhostEntry) :=
  match scanHost buf with
  | .error e => .error e
  | .ok none => .ok found
  | .ok (some (canid, hostname)) =>
    if hostname.chars ≠ name then .ok found
    else
      match scanCanid canid.chars with
      | none => .ok found
      | some (c, m, n) => .ok (some ⟨c, m, n, hostname⟩)

def hostbyaddrTurn (c m n : BitVec 32) (found : Option CanhostEntry) (buf : Record) :
    Except Overrun (Option CanhostEntry) :=
  match scanHost buf with
  | .error e => .error e
  | .ok none => .ok found
  | .ok (some (canid, hostname)) =>
    match scanCanid canid.chars with
    | none => .ok found
    | some (xc, xm, xn) =>
      if c ≠ xc ∨ m ≠ xm ∨ n ≠ xn then .ok found else .ok (some ⟨xc, xm, xn, hostname⟩)

/-- The file is `none` where `fopen` fails. The value `none` is the return
value -1. -/
def canGethostbyname (f : Option (List Record)) (name : List Char) :
    Except Overrun (Option CanhostEntry) :=
  match f with
  | none => .ok none
  | some bufs => bufs.foldlM (hostbynameTurn name) none

def canGethostbyaddr (f : Option (List Record)) (c m n : BitVec 32) :
    Except Overrun (Option CanhostEntry) :=
  match f with
  | none => .ok none
  | some bufs => bufs.foldlM (hostbyaddrTurn c m n) none

/-- `sscanf(buf, "%x %s", &tmpid, tmpname)`, when it returns 2. -/
def scanObj (buf : Record) : Except Overrun (Option CanobjEntry) :=
  match scanHex 32 buf.chars with
  | none => .ok none
  | some (tmpid, rest) =>
    match scanWord rest with
    | none => .ok none
    | some (tmpname, _) =>
      match store maxhostnamelen tmpname with
      | .error e => .error e
      | .ok tmpname => .ok (some ⟨tmpid, tmpname⟩)

/-- The loop of both object lookups, which a match breaks. -/
def scanObjs (p : CanobjEntry → Bool) : List Record → Except Overrun (Option CanobjEntry)
  | [] => .ok none
  | buf :: bufs =>
    match scanObj buf with
    | .error e => .error e
    | .ok none => scanObjs p bufs
    | .ok (some obj) => if p obj then .ok (some obj) else scanObjs p bufs

def canGetobjbyname (f : Option (List Record)) (name : List Char) :
    Except Overrun (Option CanobjEntry) :=
  match f with
  | none => .ok none
  | some bufs => scanObjs (fun obj => foldCase obj.name.chars = foldCase name) bufs

def canGetobjbyid (f : Option (List Record)) (id : BitVec 32) :
    Except Overrun (Option CanobjEntry) :=
  match f with
  | none => .ok none
  | some bufs => scanObjs (fun obj => obj.id = id) bufs

/-! What the records of a file say, whatever the length of their words. -/

def hostWords (buf : Record) : Option (List Char × List Char) := do
  let (canid, rest) ← scanWord buf.chars
  let (hostname, _) ← scanWord rest
  return (canid, hostname)

/-- A well-formed record of /etc/canhosts. -/
def hostRow (buf : Record) : Option (CanAddress × List Char) := do
  let (canid, hostname) ← hostWords buf
  let addr ← scanCanid canid
  return (addr, hostname)

/-- A well-formed record of /etc/canobj. -/
def objRow (buf : Record) : Option (BitVec 32 × List Char) := do
  let (id, rest) ← scanHex 32 buf.chars
  let (name, _) ← scanWord rest
  return (id, name)

def CanhostEntry.row (x : CanhostEntry) : CanAddress × List Char :=
  ((x.cluster, x.module, x.node), x.hostname.chars)

def CanobjEntry.row (x : CanobjEntry) : BitVec 32 × List Char := (x.id, x.name.chars)

/-- The lookups of /etc/canhosts undo each other, and fail for lack of a
record only. -/
structure HostsInverse (f : List Record) : Prop where
  byname_byaddr : ∀ h x, canGethostbyname (some f) h = .ok (some x) →
    ∃ y, canGethostbyaddr (some f) x.cluster x.module x.node = .ok (some y) ∧ y.hostname.chars = h
  byaddr_byname : ∀ c m n x, canGethostbyaddr (some f) c m n = .ok (some x) →
    ∃ y, canGethostbyname (some f) x.hostname.chars = .ok (some y) ∧
      (y.cluster, y.module, y.node) = (c, m, n)
  byname_fails : ∀ h, canGethostbyname (some f) h = .ok none ↔
    ∀ e ∈ f.filterMap hostRow, e.2 ≠ h
  byaddr_fails : ∀ c m n, canGethostbyaddr (some f) c m n = .ok none ↔
    ∀ e ∈ f.filterMap hostRow, e.1 ≠ (c, m, n)

/-- The same of /etc/canobj, with names up to case. -/
structure ObjsInverse (f : List Record) : Prop where
  byname_byid : ∀ s x, canGetobjbyname (some f) s = .ok (some x) →
    ∃ y, canGetobjbyid (some f) x.id = .ok (some y) ∧ foldCase y.name.chars = foldCase s
  byid_byname : ∀ i x, canGetobjbyid (some f) i = .ok (some x) →
    ∃ y, canGetobjbyname (some f) x.name.chars = .ok (some y) ∧ y.id = i
  byname_fails : ∀ s, canGetobjbyname (some f) s = .ok none ↔
    ∀ e ∈ f.filterMap objRow, foldCase e.2 ≠ foldCase s
  byid_fails : ∀ i, canGetobjbyid (some f) i = .ok none ↔ ∀ e ∈ f.filterMap objRow, e.1 ≠ i

/-- The second word of a record fits `hostname`. -/
def HostFits (buf : Record) : Prop := ∀ w ∈ hostWords buf, w.2.length < maxhostnamelen

def ObjFits (buf : Record) : Prop := ∀ e ∈ objRow buf, e.2.length < maxhostnamelen

instance : DecidablePred HostFits :=
  fun buf => inferInstanceAs (Decidable (∀ w ∈ hostWords buf, w.2.length < maxhostnamelen))

instance : DecidablePred ObjFits :=
  fun buf => inferInstanceAs (Decidable (∀ e ∈ objRow buf, e.2.length < maxhostnamelen))

/-- The code's result and a row of the file say the same. -/
def Returns {β γ : Type} (row : β → γ) (res : Except Overrun (Option β)) (o : Option γ) : Prop :=
  ∃ x, res = .ok x ∧ x.map row = o

namespace Returns

variable {β γ : Type} {row : β → γ} {res : Except Overrun (Option β)} {o : Option γ}

theorem eq_none_iff (h : Returns row res o) : res = .ok none ↔ o = none := by
  obtain ⟨x, rfl, rfl⟩ := h
  cases x <;> simp

theorem eq_some (h : Returns row res o) {x : β} (hx : res = .ok (some x)) : o = some (row x) := by
  obtain ⟨y, rfl, rfl⟩ := h
  cases hx
  rfl

theorem exists_row {e : γ} (h : Returns row res (some e)) :
    ∃ x, res = .ok (some x) ∧ row x = e := by
  obtain ⟨x, rfl, hx⟩ := h
  obtain ⟨y, rfl, hy⟩ := Option.map_eq_some_iff.mp hx
  exact ⟨y, rfl, hy⟩

end Returns

/-- The text of a record fits `canid`, so only the second word can overrun. -/
theorem scanHost_cases (buf : Record) :
    hostWords buf = none ∧ scanHost buf = .ok none ∨
    (∃ canid hostname, hostWords buf = some (canid.chars, hostname.chars) ∧
      scanHost buf = .ok (some (canid, hostname))) ∨
    ¬ HostFits buf ∧ scanHost buf = .error .overrun := by
  unfold HostFits hostWords scanHost
  cases hc : scanWord buf.chars with
  | none => exact .inl ⟨rfl, rfl⟩
  | some v =>
    obtain ⟨canid, rest⟩ := v
    have hl : canid.length < 255 := Nat.lt_of_le_of_lt (scanWord_length_le hc) buf.fits
    simp only [store_of_fits hl]
    cases hw : scanWord rest with
    | none => exact .inl ⟨by simp [hw], rfl⟩
    | some v =>
      obtain ⟨hostname, rest'⟩ := v
      by_cases hf : hostname.length < maxhostnamelen
      · refine .inr (.inl ⟨⟨canid, hl⟩, ⟨hostname, hf⟩, by simp [hw], ?_⟩)
        simp only [store_of_fits hf]
      · refine .inr (.inr ⟨?_, by simp only [store_of_not_fits hf]⟩)
        simpa [hw] using hf

def keepRow {γ κ : Type} [DecidableEq κ] (key : γ → κ) (k : κ) (found : Option γ) :
    Option γ → Option γ
  | none => found
  | some e => if key e = k then some e else found

/-- A turn of the loop keeps the last row with the key `k`, and gets through
records that fit only. -/
structure KeepsLast {κ : Type} [DecidableEq κ] (key : CanAddress × List Char → κ) (k : κ)
    (turn : Option CanhostEntry → Record → Except Overrun (Option CanhostEntry)) : Prop where
  fits : ∀ found buf y, turn found buf = .ok y → HostFits buf
  row : ∀ found buf, HostFits buf →
    Returns CanhostEntry.row (turn found buf)
      (keepRow key k (found.map CanhostEntry.row) (hostRow buf))

theorem KeepsLast.of_scan {κ : Type} [DecidableEq κ] {key : CanAddress × List Char → κ} {k : κ}
    {turn : Option CanhostEntry → Record → Except Overrun (Option CanhostEntry)}
    (herr : ∀ found buf e, scanHost buf = .error e → turn found buf = .error e)
    (hnone : ∀ found buf, scanHost buf = .ok none → turn found buf = .ok found)
    (hsome : ∀ found buf canid hostname, scanHost buf = .ok (some (canid, hostname)) →
      Returns CanhostEntry.row (turn found buf) (keepRow key k (found.map CanhostEntry.row)
        ((scanCanid canid.chars).map fun a => (a, hostname.chars)))) : KeepsLast key k turn where
  fits found buf y h := by
    intro w hw
    rcases scanHost_cases buf with ⟨hn, _⟩ | ⟨canid, hostname, hs, _⟩ | ⟨_, hs⟩
    · rw [hn] at hw
      cases hw
    · rw [hs] at hw
      cases hw
      exact hostname.fits
    · rw [herr found buf _ hs] at h
      cases h
  row found buf hf := by
    rcases scanHost_cases buf with ⟨hw, hs⟩ | ⟨canid, hostname, hw, hs⟩ | ⟨hn, _⟩
    · refine ⟨found, hnone found buf hs, ?_⟩
      simp [hostRow, hw, keepRow]
    · have hr : hostRow buf = (scanCanid canid.chars).map fun a => (a, hostname.chars) := by
        cases ha : scanCanid canid.chars <;> simp [hostRow, hw, ha]
      rw [hr]
      exact hsome found buf canid hostname hs
    · exact absurd hf hn

theorem hostbynameTurn_keepsLast (name : List Char) :
    KeepsLast Prod.snd name (hostbynameTurn name) := by
  refine .of_scan (fun found buf e h => ?_) (fun found buf h => ?_)
    fun found buf canid hostname h => ?_
  · simp only [hostbynameTurn, h]
  · simp only [hostbynameTurn, h]
  · simp only [hostbynameTurn, h]
    cases ha : scanCanid canid.chars with
    | none =>
      refine ⟨found, ?_, rfl⟩
      split_ifs <;> rfl
    | some a =>
      by_cases hn : hostname.chars = name
      · refine ⟨_, if_neg (not_not.mpr hn), ?_⟩
        simp [keepRow, hn, CanhostEntry.row]
      · refine ⟨_, if_pos hn, ?_⟩
        simp [keepRow, hn]

theorem hostbyaddrTurn_keepsLast (c m n : BitVec 32) :
    KeepsLast Prod.fst (c, m, n) (hostbyaddrTurn c m n) := by
  refine .of_scan (fun found buf e h => ?_) (fun found buf h => ?_)
    fun found buf canid hostname h => ?_
  · simp only [hostbyaddrTurn, h]
  · simp only [hostbyaddrTurn, h]
  · simp only [hostbyaddrTurn, h]
    cases ha : scanCanid canid.chars with
    | none => exact ⟨found, rfl, rfl⟩
    | some a =>
      obtain ⟨xc, xm, xn⟩ := a
      by_cases hn : (xc, xm, xn) = (c, m, n)
      · cases hn
        refine ⟨_, if_neg (by simp), ?_⟩
        simp [keepRow, CanhostEntry.row]
      · refine ⟨found, if_pos ?_, ?_⟩
        · by_contra hc
          push Not at hc
          obtain ⟨rfl, rfl, rfl⟩ := hc
          exact hn rfl
        · simp [keepRow, hn]

namespace KeepsLast

variable {κ : Type} [DecidableEq κ] {key : CanAddress × List Char → κ} {k : κ} {f : List Record}
  {turn : Option CanhostEntry → Record → Except Overrun (Option CanhostEntry)}

theorem run (h : KeepsLast key k turn) (hf : ∀ buf ∈ f, HostFits buf)
    (found : Option CanhostEntry) :
    Returns CanhostEntry.row (f.foldlM turn found)
      ((f.filterMap hostRow).foldl (fun found e => if key e = k then some e else found)
        (found.map CanhostEntry.row)) := by
  induction f generalizing found with
  | nil => exact ⟨found, rfl, rfl⟩
  | cons buf f ih =>
    obtain ⟨y, hy, hrow⟩ := h.row found buf (hf buf List.mem_cons_self)
    have hrest := ih (fun b hb => hf b (List.mem_cons_of_mem _ hb)) y
    have hfold : (buf :: f).foldlM turn found = f.foldlM turn y := by
      rw [List.foldlM_cons, hy]
      rfl
    rw [hfold]
    rw [hrow] at hrest
    cases hr : hostRow buf with
    | none =>
      rw [List.filterMap_cons_none hr]
      simpa only [hr, keepRow] using hrest
    | some e =>
      rw [List.filterMap_cons_some hr, List.foldl_cons]
      simpa only [hr, keepRow] using hrest

theorem lookup (h : KeepsLast key k turn) (hf : ∀ buf ∈ f, HostFits buf) :
    Returns CanhostEntry.row (f.foldlM turn none) (lastRow key (f.filterMap hostRow) k) :=
  h.run hf none

theorem fit_of_run (h : KeepsLast key k turn) {found y : Option CanhostEntry}
    (hr : f.foldlM turn found = .ok y) : ∀ buf ∈ f, HostFits buf := by
  induction f generalizing found with
  | nil => simp
  | cons buf f ih =>
    rw [List.foldlM_cons] at hr
    cases ht : turn found buf with
    | error e =>
      rw [ht] at hr
      cases hr
    | ok z =>
      rw [ht] at hr
      intro b hb
      rcases List.mem_cons.mp hb with rfl | hb
      · exact h.fits found b z ht
      · exact ih hr b hb

end KeepsLast

/-! The object scanners. -/

theorem scanObj_cases (buf : Record) :
    objRow buf = none ∧ scanObj buf = .ok none ∨
    (∃ obj : CanobjEntry, objRow buf = some obj.row ∧ scanObj buf = .ok (some obj)) ∨
    ¬ ObjFits buf ∧ scanObj buf = .error .overrun := by
  unfold ObjFits objRow scanObj
  cases hx : scanHex 32 buf.chars with
  | none => exact .inl ⟨rfl, rfl⟩
  | some v =>
    obtain ⟨id, rest⟩ := v
    cases hw : scanWord rest with
    | none => exact .inl ⟨by simp [hw], by simp only [hw]⟩
    | some v =>
      obtain ⟨name, rest'⟩ := v
      by_cases hf : name.length < maxhostnamelen
      · refine .inr (.inl ⟨⟨id, ⟨name, hf⟩⟩, by simp [hw, CanobjEntry.row], ?_⟩)
        simp only [hw, store_of_fits hf]
      · refine .inr (.inr ⟨?_, by simp only [hw, store_of_not_fits hf]⟩)
        simpa [hw] using hf

/-- A scan that comes to an end has returned the first row that satisfies `q`,
also when a record behind it does not fit. -/
theorem find?_of_scanObjs {f : List Record} {p : CanobjEntry → Bool}
    {q : BitVec 32 × List Char → Bool} (hp : ∀ obj, p obj = q obj.row) {x : Option CanobjEntry}
    (h : scanObjs p f = .ok x) : x.map CanobjEntry.row = (f.filterMap objRow).find? q := by
  induction f with
  | nil =>
    cases h
    rfl
  | cons buf f ih =>
    rw [scanObjs] at h
    rcases scanObj_cases buf with ⟨hr, hs⟩ | ⟨obj, hr, hs⟩ | ⟨_, hs⟩
    · rw [hs] at h
      rw [List.filterMap_cons_none hr]
      exact ih h
    · rw [hs] at h
      rw [List.filterMap_cons_some hr]
      cases hq : q obj.row with
      | true =>
        rw [List.find?_cons_of_pos hq]
        simp only [hp, hq, if_true] at h
        cases h
        rfl
      | false =>
        rw [List.find?_cons_of_neg (by simp [hq])]
        simp only [hp, hq, Bool.false_eq_true, if_false] at h
        exact ih h
    · rw [hs] at h
      cases h

theorem exists_scanObjs {f : List Record} (p : CanobjEntry → Bool) (hf : ∀ buf ∈ f, ObjFits buf) :
    ∃ x, scanObjs p f = .ok x := by
  induction f with
  | nil => exact ⟨none, rfl⟩
  | cons buf f ih =>
    have hrest := ih fun b hb => hf b (List.mem_cons_of_mem _ hb)
    rw [scanObjs]
    rcases scanObj_cases buf with ⟨_, hs⟩ | ⟨obj, _, hs⟩ | ⟨hn, _⟩
    · rw [hs]
      exact hrest
    · rw [hs]
      dsimp only
      split_ifs
      · exact ⟨some obj, rfl⟩
      · exact hrest
    · exact absurd (hf buf List.mem_cons_self) hn

theorem scanObjs_row {f : List Record} {p : CanobjEntry → Bool} {q : BitVec 32 × List Char → Bool}
    (hp : ∀ obj, p obj = q obj.row) (hf : ∀ buf ∈ f, ObjFits buf) :
    Returns CanobjEntry.row (scanObjs p f) ((f.filterMap objRow).find? q) := by
  obtain ⟨x, hx⟩ := exists_scanObjs p hf
  exact ⟨x, hx, find?_of_scanObjs hp hx⟩

theorem objFits_of_scanObjs {f : List Record} {p : CanobjEntry → Bool}
    (h : scanObjs p f = .ok none) : ∀ buf ∈ f, ObjFits buf := by
  induction f with
  | nil => simp
  | cons buf f ih =>
    rw [scanObjs] at h
    intro b hb
    rcases scanObj_cases buf with ⟨hr, hs⟩ | ⟨obj, hr, hs⟩ | ⟨_, hs⟩
    · rw [hs] at h
      rcases List.mem_cons.mp hb with rfl | hb
      · simp [ObjFits, hr]
      · exact ih h b hb
    · rw [hs] at h
      rcases List.mem_cons.mp hb with rfl | hb
      · intro e he
        rw [hr] at he
        cases he
        exact obj.name.fits
      · refine ih ?_ b hb
        cases hp : p obj with
        | true => simp [hp] at h
        | false => simpa [hp] using h
    · rw [hs] at h
      cases h

variable {f : List Record}

theorem canGethostbyname_row (hf : ∀ buf ∈ f, HostFits buf) (h : List Char) :
    Returns CanhostEntry.row (canGethostbyname (some f) h)
      (lastRow Prod.snd (f.filterMap hostRow) h) :=
  (hostbynameTurn_keepsLast h).lookup hf

theorem canGethostbyaddr_row (hf : ∀ buf ∈ f, HostFits buf) (c m n : BitVec 32) :
    Returns CanhostEntry.row (canGethostbyaddr (some f) c m n)
      (lastRow Prod.fst (f.filterMap hostRow) (c, m, n)) :=
  (hostbyaddrTurn_keepsLast c m n).lookup hf

theorem canGetobjbyname_row (hf : ∀ buf ∈ f, ObjFits buf) (s : List Char) :
    Returns CanobjEntry.row (canGetobjbyname (some f) s)
      (firstRow (fun e => foldCase e.2) (f.filterMap objRow) (foldCase s)) :=
  scanObjs_row (fun _ => rfl) hf

theorem canGetobjbyid_row (hf : ∀ buf ∈ f, ObjFits buf) (i : BitVec 32) :
    Returns CanobjEntry.row (canGetobjbyid (some f) i) (firstRow Prod.fst (f.filterMap objRow) i) :=
  scanObjs_row (fun _ => rfl) hf

theorem HostsInverse.of_fit (hn : ((f.filterMap hostRow).map Prod.snd).Nodup)
    (ha : ((f.filterMap hostRow).map Prod.fst).Nodup) (hf : ∀ buf ∈ f, HostFits buf) :
    HostsInverse f where
  byname_byaddr h x hx := by
    have he := (canGethostbyname_row hf h).eq_some hx
    have hr := canGethostbyaddr_row hf x.cluster x.module x.node
    have hb := (lastRow_finds hn).back (lastRow_finds ha) he
    obtain ⟨y, hy, hyx⟩ := (hb ▸ hr).exists_row
    exact ⟨y, hy, (congrArg Prod.snd hyx).trans ((lastRow_finds hn h x.row).mp he).2⟩
  byaddr_byname c m n x hx := by
    have he := (canGethostbyaddr_row hf c m n).eq_some hx
    have hr := canGethostbyname_row hf x.hostname.chars
    have hb := (lastRow_finds ha).back (lastRow_finds hn) he
    obtain ⟨y, hy, hyx⟩ := (hb ▸ hr).exists_row
    exact ⟨y, hy, (congrArg Prod.fst hyx).trans ((lastRow_finds ha (c, m, n) x.row).mp he).2⟩
  byname_fails h := (canGethostbyname_row hf h).eq_none_iff.trans ((lastRow_finds hn).eq_none_iff h)
  byaddr_fails c m n :=
    (canGethostbyaddr_row hf c m n).eq_none_iff.trans ((lastRow_finds ha).eq_none_iff (c, m, n))

theorem ObjsInverse.of_fit (hn : ((f.filterMap objRow).map fun e => foldCase e.2).Nodup)
    (hi : ((f.filterMap objRow).map Prod.fst).Nodup) (hf : ∀ buf ∈ f, ObjFits buf) :
    ObjsInverse f where
  byname_byid s x hx := by
    have he := (canGetobjbyname_row hf s).eq_some hx
    have hr := canGetobjbyid_row hf x.id
    have hb := (firstRow_finds hn).back (firstRow_finds hi) he
    obtain ⟨y, hy, hyx⟩ := (hb ▸ hr).exists_row
    have hc := congrArg (fun e => foldCase e.2) hyx
    exact ⟨y, hy, hc.trans ((firstRow_finds hn (foldCase s) x.row).mp he).2⟩
  byid_byname i x hx := by
    have he := (canGetobjbyid_row hf i).eq_some hx
    have hr := canGetobjbyname_row hf x.name.chars
    have hb := (firstRow_finds hi).back (firstRow_finds hn) he
    obtain ⟨y, hy, hyx⟩ := (hb ▸ hr).exists_row
    exact ⟨y, hy, (congrArg Prod.fst hyx).trans ((firstRow_finds hi i x.row).mp he).2⟩
  byname_fails s :=
    (canGetobjbyname_row hf s).eq_none_iff.trans ((firstRow_finds hn).eq_none_iff (foldCase s))
  byid_fails i := (canGetobjbyid_row hf i).eq_none_iff.trans ((firstRow_finds hi).eq_none_iff i)

theorem hostRow_name_ne_nil {buf : Record} {e : CanAddress × List Char}
    (h : hostRow buf = some e) : e.2 ≠ [] := by
  simp only [hostRow, hostWords, Option.bind_eq_bind, Option.bind_eq_some_iff] at h
  obtain ⟨w, ⟨v, hv, u, hu, hw⟩, a, ha, he⟩ := h
  cases hw
  cases he
  exact scanWord_ne_nil hu

theorem objRow_name_ne_nil {buf : Record} {e : BitVec 32 × List Char}
    (h : objRow buf = some e) : e.2 ≠ [] := by
  simp only [objRow, Option.bind_eq_bind, Option.bind_eq_some_iff] at h
  obtain ⟨v, hv, u, hu, he⟩ := h
  cases he
  exact scanWord_ne_nil hu

/-- No record has the empty name, so the lookup of it reads the whole file. -/
theorem HostsInverse.fit (h : HostsInverse f) : ∀ buf ∈ f, HostFits buf := by
  have hn : canGethostbyname (some f) [] = .ok none := by
    refine (h.byname_fails []).mpr fun e he => ?_
    obtain ⟨buf, _, hr⟩ := List.mem_filterMap.mp he
    exact hostRow_name_ne_nil hr
  exact (hostbynameTurn_keepsLast []).fit_of_run hn

theorem ObjsInverse.fit (h : ObjsInverse f) : ∀ buf ∈ f, ObjFits buf := by
  have hn : canGetobjbyname (some f) [] = .ok none := by
    refine (h.byname_fails []).mpr fun e he => ?_
    obtain ⟨buf, _, hr⟩ := List.mem_filterMap.mp he
    simpa [foldCase] using objRow_name_ne_nil hr
  exact objFits_of_scanObjs hn

/-- The lookups are inverse unless a record, a comment too, has a word of 128
characters or more where they look for a name. -/
theorem lookups_inverse_iff {hosts objs : List Record}
    (hname : ((hosts.filterMap hostRow).map Prod.snd).Nodup)
    (haddr : ((hosts.filterMap hostRow).map Prod.fst).Nodup)
    (oname : ((objs.filterMap objRow).map fun e => foldCase e.2).Nodup)
    (oid : ((objs.filterMap objRow).map Prod.fst).Nodup) :
    HostsInverse hosts ∧ ObjsInverse objs ↔
      (∀ buf ∈ hosts, HostFits buf) ∧ ∀ buf ∈ objs, ObjFits buf := by
  constructor
  · rintro ⟨hh, ho⟩
    exact ⟨hh.fit, ho.fit⟩
  · rintro ⟨hh, ho⟩
    exact ⟨.of_fit hname haddr hh, .of_fit oname oid ho⟩

def sampleHosts : List Record :=
  [⟨"# Module 0\n".toList, by decide⟩, ⟨"00,00,00\tnode0\n".toList, by decide⟩,
    ⟨"00,00,04\tnode1\n".toList, by decide⟩, ⟨"\n".toList, by decide⟩]

def sampleObjs : List Record :=
  [⟨"011\tRESET\t\t\t# reset the node\n".toList, by decide⟩,
    ⟨"3ff\tTESTRW\t\t\t# canping\n".toList, by decide⟩]

theorem lookups_inverse_sample : HostsInverse sampleHosts ∧ ObjsInverse sampleObjs :=
  (lookups_inverse_iff (by decide) (by decide) (by decide) (by decide)).mpr
    ⟨by decide, by decide⟩

/-- A comment: a hash and a line of 128 dashes. -/
def ruler : Record := ⟨'#' :: ' ' :: List.replicate 128 '-' ++ ['\n'], by decide +kernel⟩

theorem ruler_overruns :
    (((ruler :: sampleHosts).filterMap hostRow).map Prod.snd).Nodup ∧
      (((ruler :: sampleHosts).filterMap hostRow).map Prod.fst).Nodup ∧
      canGethostbyname (some (ruler :: sampleHosts)) "node0".toList = .error .overrun ∧
      ¬ HostsInverse (ruler :: sampleHosts) := by
  have hw : ¬ HostFits ruler := by decide +kernel
  have hs : scanHost ruler = .error .overrun := by decide +kernel
  refine ⟨by decide +kernel, by decide +kernel, ?_, fun h => hw (h.fit ruler List.mem_cons_self)⟩
  rw [canGethostbyname, List.foldlM_cons, hostbynameTurn, hs]
  rfl

end MeikoCs2
