import DosKernel.Identity.Caps
import Mathlib.Data.Fintype.EquivFin

namespace DosKernel.Config

open DosKernel.Identity List

-- The settings of kernel/core/config.c: the machine's, and each signed-in account's overrides.

inductive Scope where
  | machine
  | user
deriving DecidableEq, Repr

inductive Seat where
  | never
  | take
  | ifFree
deriving DecidableEq, Repr

abbrev Entries := List (String × String)

def maxLayers : ℕ := 8

structure Layer where
  uid : ℤ := -1
  refs : ℕ := 0
  entries : Entries := []
deriving DecidableEq, Repr

structure State where
  head : Entries
  layers : List Layer := List.replicate maxLayers {}
  nLayers : ℕ := 0
  consoleUid : ℤ := -1
  consoleToken : ℕ := 0
deriving DecidableEq, Repr

def findIn (h : Entries) (key : String) : Option String := (h.find? fun e => e.1 = key).map Prod.snd

def replaceIn (key value : String) : Entries → Entries
  | [] => []
  | e :: h => if e.1 = key then (e.1, value) :: h else e :: replaceIn key value h

def setIn (h : Entries) (key value : String) : Entries :=
  if (findIn h key).isSome then replaceIn key value h else (key, value) :: h

def layerOf (s : State) (uid : ℤ) : Option ℕ :=
  if uid < 0 then none else s.layers.findIdx? fun l => decide (0 < l.refs) && decide (l.uid = uid)

def viewerUid (s : State) (c : Cred) : ℤ := if c.owner = .user then c.uid else s.consoleUid

def viewerLayer (s : State) (c : Cred) : Option ℕ :=
  if s.nLayers = 0 then none else layerOf s (viewerUid s c)

def layerEntries (s : State) (i : ℕ) : Entries := (s.layers[i]?.map Layer.entries).getD []

def configGet (s : State) (c : Cred) (key : String) : Option String :=
  ((viewerLayer s c).bind fun i => findIn (layerEntries s i) key).or (findIn s.head key)

def setLayer (s : State) (i : ℕ) (key value : String) : State :=
  { s with layers := s.layers.modify i fun l => { l with entries := setIn l.entries key value } }

-- A machine key needs an administrator; a user's key lands in the caller's layer, if any.
def configApply (scope : String → Scope) (mem : Bool) (s : State) (c : Cred) (key value : String) :
    ℤ × State :=
  if c.owner = .user ∧ scope key = .machine ∧ credIsAdmin c = false then (-2, s)
  else
    let layer := if scope key = .user then viewerLayer s c else none
    let list := (layer.map (layerEntries s)).getD s.head
    if mem = false then (if (findIn list key).isSome then -2 else -3, s)
    else (0, match layer with
      | some i => setLayer s i key value
      | none => { s with head := setIn s.head key value })

-- A session of an account begins. `stored` is what its file on the volume holds.
def claimSeat (s : State) (uid : ℤ) (seat : Seat) : ℕ × State :=
  if seat = .take ∨ seat = .ifFree ∧ s.consoleUid < 0 then
    let next := if (s.consoleToken + 1) % 2147483648 = 0 then s.consoleToken + 2 else s.consoleToken + 1
    (next % 2147483648, { s with consoleUid := uid, consoleToken := next })
  else (0, s)

def layerLoad (scope : String → Scope) (stored : Entries) : Entries :=
  stored.foldl (fun h e => if scope e.1 = .user then setIn h e.1 e.2 else h) []

def configUserAttach (scope : String → Scope) (s : State) (uid : ℤ) (seat : Seat) (stored : Entries) :
    ℤ × State :=
  if uid < 0 then (-1, s)
  else match layerOf s uid with
    | some i =>
      let r := claimSeat { s with layers := s.layers.modify i fun l => { l with refs := l.refs + 1 } }
        uid seat
      (r.1, r.2)
    | none => match s.layers.findIdx? fun l => decide (l.refs = 0) with
      | none => (-1, s)
      | some i =>
        let r := claimSeat { s with
          layers := s.layers.set i { uid := uid, refs := 1, entries := layerLoad scope stored }
          nLayers := s.nLayers + 1 } uid seat
        (r.1, r.2)

def configUserDetach (s : State) (uid : ℤ) (token : ℕ) : State :=
  if uid < 0 then s
  else match layerOf s uid with
    | none => s
    | some i =>
      let s' : State :=
        if token ≠ 0 ∧ token = s.consoleToken % 2147483648 ∧ s.consoleUid = uid then
          { s with consoleUid := -1 } else s
      if (s.layers[i]?.map Layer.refs).getD 0 ≤ 1 then
        { s' with layers := s'.layers.set i {}, nLayers := s'.nLayers - 1 }
      else { s' with layers := s'.layers.modify i fun l => { l with refs := l.refs - 1 } }

theorem findIn_cons (e : String × String) (h : Entries) (k : String) :
    findIn (e :: h) k = if e.1 = k then some e.2 else findIn h k := by
  unfold findIn
  by_cases hk : e.1 = k <;> simp [hk]

theorem findIn_replaceIn (h : Entries) (key value k : String) (hkey : (findIn h key).isSome = true) :
    findIn (replaceIn key value h) k = if k = key then some value else findIn h k := by
  induction h with
  | nil => cases hkey
  | cons e h ih =>
    rw [findIn_cons] at hkey
    unfold replaceIn
    by_cases he : e.1 = key
    · rw [if_pos he, findIn_cons, findIn_cons]
      subst he
      by_cases hk : e.1 = k
      · simp [hk]
      · simp [hk, Ne.symm hk]
    · rw [if_neg he] at hkey ⊢
      rw [findIn_cons, findIn_cons, ih hkey]
      by_cases hk : e.1 = k
      · subst hk
        simp [he]
      · simp [hk]

theorem findIn_setIn (h : Entries) (key value k : String) :
    findIn (setIn h key value) k = if k = key then some value else findIn h k := by
  unfold setIn
  split
  next hkey =>
    exact findIn_replaceIn h key value k hkey
  · rw [findIn_cons]
    by_cases hk : k = key
    · simp [hk]
    · simp [hk, Ne.symm hk]

theorem findIdx?_modify {α : Type*} {p : α → Bool} {f : α → α} (h : ∀ a, p (f a) = p a) (l : List α)
    (i : ℕ) : (l.modify i f).findIdx? p = l.findIdx? p := by
  induction l generalizing i with
  | nil => simp
  | cons a l ih =>
    cases i with
    | zero => simp [findIdx?_cons, h]
    | succ i => simp [findIdx?_cons, ih]

section SetLayer

variable {s : State} {i : ℕ} {key value : String}

theorem layerOf_setLayer (uid : ℤ) : layerOf (setLayer s i key value) uid = layerOf s uid := by
  unfold layerOf
  split
  · rfl
  · apply findIdx?_modify
    exact fun _ => rfl

theorem layerEntries_setLayer (j : ℕ) (hi : i < s.layers.length) :
    layerEntries (setLayer s i key value) j =
      if i = j then setIn (layerEntries s j) key value else layerEntries s j := by
  unfold layerEntries setLayer
  by_cases hij : i = j
  · subst hij
    simp [hi]
  · simp [hij]

theorem viewerLayer_setLayer (v : Cred) :
    viewerLayer (setLayer s i key value) v = viewerLayer s v := by
  unfold viewerLayer
  rw [layerOf_setLayer]
  rfl

theorem layerOf_lt {uid : ℤ} (h : layerOf s uid = some i) : i < s.layers.length := by
  unfold layerOf at h
  split at h
  · cases h
  · exact (findIdx?_eq_some_iff_getElem.mp h).1

theorem layerOf_uid {uid : ℤ} (h : layerOf s uid = some i) :
    ∃ l, s.layers[i]? = some l ∧ l.uid = uid := by
  unfold layerOf at h
  split at h
  · cases h
  · obtain ⟨hi, hl, -⟩ := findIdx?_eq_some_iff_getElem.mp h
    rw [Bool.and_eq_true, decide_eq_true_eq, decide_eq_true_eq] at hl
    exact ⟨_, getElem?_eq_getElem hi, hl.2⟩

theorem layerOf_inj {u w : ℤ} (h : layerOf s u = some i) (h' : layerOf s w = some i) : u = w := by
  obtain ⟨l, hl, hu⟩ := layerOf_uid h
  obtain ⟨l', hl', hw⟩ := layerOf_uid h'
  rw [hl] at hl'
  cases hl'
  exact hu.symm.trans hw

theorem viewerLayer_of {v : Cred} (h : viewerLayer s v = some i) :
    layerOf s (viewerUid s v) = some i := by
  unfold viewerLayer at h
  split at h
  · cases h
  · exact h

theorem configGet_setLayer (v : Cred) (k : String) (hi : i < s.layers.length) :
    configGet (setLayer s i key value) v k =
      if viewerLayer s v = some i ∧ k = key then some value else configGet s v k := by
  unfold configGet
  rw [viewerLayer_setLayer]
  cases hv : viewerLayer s v with
  | none => simp; rfl
  | some j =>
    simp only [Option.bind_some, layerEntries_setLayer j hi, Option.some.injEq]
    by_cases hij : i = j
    · subst hij
      rw [if_pos rfl, findIn_setIn]
      by_cases hk : k = key
      · simp [hk]
      · simp [hk]
        rfl
    · simp [hij, Ne.symm hij]
      rfl

end SetLayer

theorem configGet_setHead (s : State) (v : Cred) (key value k : String) :
    configGet { s with head := setIn s.head key value } v k =
      ((viewerLayer s v).bind fun i => findIn (layerEntries s i) k).or
        (if k = key then some value else findIn s.head k) := by
  unfold configGet
  rw [findIn_setIn]
  rfl

def Other (c v : Cred) : Prop := v.owner ≠ .user ∨ v.uid ≠ c.uid

def Unnoticed (scope : String → Scope) (mem : Bool) (s : State) (c : Cred) (key value : String) : Prop :=
  ∀ v, Other c v → ∀ k, configGet (configApply scope mem s c key value).2 v k = configGet s v k

-- The call is refused or fails; or the caller has a layer, and the console is not its own or shows
-- the value; or it has none, and the machine's value is this one.
def Personal (scope : String → Scope) (mem : Bool) (s : State) (c : Cred) (key value : String) : Prop :=
  scope key = .machine ∨ mem = false ∨
    (viewerLayer s c).isSome = true ∧ (s.consoleUid ≠ c.uid ∨ configGet s c key = some value) ∨
    viewerLayer s c = none ∧ findIn s.head key = some value

instance (scope : String → Scope) (mem : Bool) (s : State) (c : Cred) (key value : String) :
    Decidable (Personal scope mem s c key value) := inferInstanceAs (Decidable (_ ∨ _ ∨ _ ∨ _))

section Apply

variable {scope : String → Scope} {s : State} {c : Cred} {key value : String}

theorem apply_nomem : (configApply scope false s c key value).2 = s := by
  unfold configApply
  split
  · rfl
  · rfl

theorem apply_layer {i : ℕ} (hs : scope key = .user) (hl : viewerLayer s c = some i) :
    (configApply scope true s c key value).2 = setLayer s i key value := by
  unfold configApply
  rw [if_neg fun h => by cases hs.symm.trans h.2.1]
  simp only [hs, hl, if_true]
  rfl

theorem apply_head (hs : scope key = .user) (hl : viewerLayer s c = none) :
    (configApply scope true s c key value).2 = { s with head := setIn s.head key value } := by
  unfold configApply
  rw [if_neg fun h => by cases hs.symm.trans h.2.1]
  simp only [hs, hl, if_true]
  rfl

theorem layer_unnoticed_iff {i : ℕ} (hu : c.owner = .user) (hl : viewerLayer s c = some i) :
    (∀ v, Other c v → ∀ k, configGet (setLayer s i key value) v k = configGet s v k) ↔
      s.consoleUid ≠ c.uid ∨ configGet s c key = some value := by
  have hown := viewerLayer_of hl
  have hlt := layerOf_lt hown
  have huid : viewerUid s c = c.uid := if_pos hu
  constructor
  · intro h
    by_contra hno
    rw [not_or, not_not] at hno
    obtain ⟨hcon, hval⟩ := hno
    have hsys : viewerLayer s {} = some i := by
      rw [← hl]
      unfold viewerLayer
      rw [huid, ← hcon]
      rfl
    have hsame := h {} (.inl (by decide)) key
    rw [configGet_setLayer _ _ hlt, if_pos ⟨hsys, rfl⟩] at hsame
    apply hval
    rw [hsame]
    unfold configGet
    rw [hsys, hl]
  · rintro h v hv k
    rw [configGet_setLayer v k hlt]
    split
    next hread =>
      obtain ⟨hvl, rfl⟩ := hread
      have heq : viewerUid s v = c.uid := huid ▸ layerOf_inj (viewerLayer_of hvl) hown
      have hsys : v.owner ≠ .user := fun ho => by
        rw [viewerUid, if_pos ho] at heq
        exact hv.elim (fun hne => hne ho) fun hne => hne heq
      rw [viewerUid, if_neg hsys] at heq
      obtain hcon | hval := h
      · exact absurd heq hcon
      · rw [← hval]
        unfold configGet
        rw [hvl, hl]
    · rfl

theorem head_unnoticed_iff :
    (∀ v, Other c v → ∀ k,
      configGet { s with head := setIn s.head key value } v k = configGet s v k) ↔
      findIn s.head key = some value := by
  constructor
  · intro h
    obtain ⟨n, hn⟩ := Infinite.exists_notMem_finset ((s.layers.map Layer.uid ++ [c.uid]).toFinset)
    rw [mem_toFinset, mem_append, not_or, mem_singleton] at hn
    have hnone : viewerLayer s { owner := .user, uid := n } = none := by
      cases hv : viewerLayer s { owner := .user, uid := n } with
      | none => rfl
      | some i =>
        obtain ⟨l, hl, hu⟩ := layerOf_uid (viewerLayer_of hv)
        exact absurd (mem_map.mpr ⟨l, mem_of_getElem? hl, hu⟩) hn.1
    have hsame := h { owner := .user, uid := n } (.inr hn.2) key
    rw [configGet_setHead] at hsame
    unfold configGet at hsame
    rw [hnone] at hsame
    simpa using hsame.symm
  · intro h v _ k
    rw [configGet_setHead]
    unfold configGet
    by_cases hk : k = key
    · rw [if_pos hk, hk, h]
    · rw [if_neg hk]

theorem unnoticed_iff_personal (scope : String → Scope) (mem : Bool) (s : State) (c : Cred)
    (key value : String) (hu : c.owner = .user) (ha : credIsAdmin c = false) :
    Unnoticed scope mem s c key value ↔ Personal scope mem s c key value := by
  unfold Unnoticed Personal
  cases hs : scope key with
  | machine =>
    rw [configApply, if_pos ⟨hu, hs, ha⟩]
    exact iff_of_true (fun _ _ _ => rfl) (.inl rfl)
  | user =>
    cases mem with
    | false =>
      rw [apply_nomem]
      exact iff_of_true (fun _ _ _ => rfl) (.inr (.inl rfl))
    | true =>
      cases hl : viewerLayer s c with
      | some i =>
        rw [apply_layer hs hl, layer_unnoticed_iff hu hl]
        simp
      | none =>
        rw [apply_head hs hl, head_unnoticed_iff]
        simp

end Apply

def wallpaperScope (key : String) : Scope := if key = "gui.wallpaper" then .user else .machine

def alice : Cred := { owner := .user, uid := 1000, gid := 1000 }

def bob : Cred := { owner := .user, uid := 1001, gid := 1001 }

def gradient : State := { head := [("gui.wallpaper", "gradient")] }

def bothSignedIn : State :=
  (configUserAttach wallpaperScope (configUserAttach wallpaperScope gradient 1001 .take []).2 1000
    .ifFree []).2

theorem bothSignedIn_unnoticed :
    (alice.owner = .user ∧ credIsAdmin alice = false) ∧
      Unnoticed wallpaperScope true bothSignedIn alice "gui.wallpaper" "solid:000000" :=
  ⟨⟨rfl, rfl⟩, (unnoticed_iff_personal wallpaperScope true bothSignedIn alice "gui.wallpaper"
    "solid:000000" rfl rfl).mpr (by decide +kernel)⟩

def signedOut : State :=
  configUserDetach (configUserAttach wallpaperScope gradient 1000 .ifFree []).2 1000 1

theorem signedOut_noticed : alice.owner = .user ∧ credIsAdmin alice = false ∧
    ¬ Unnoticed wallpaperScope true signedOut alice "gui.wallpaper" "solid:000000" := by
  refine ⟨rfl, rfl, fun h => ?_⟩
  have hsame := h bob (.inr (by decide)) "gui.wallpaper"
  revert hsame
  decide +kernel

end DosKernel.Config
