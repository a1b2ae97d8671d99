import DosKernel.Users.Store

namespace DosKernel.Users

open DosKernel.Identity DosKernel.Lib List

variable {u : Account} {g : Group} {nextUid nextGid : ℤ}

def Clean (s : Text) : Prop := ∀ c ∈ s, c ≠ ':' ∧ c ≠ '\n' ∧ c ≠ nul

theorem clean_of_all {s : Text} (h : s.all (fun c => c != ':' && c != '\n' && c != nul) = true) :
    Clean s := by
  intro c hc
  simpa [and_assoc] using all_eq_true.mp h c hc

structure Whole (s : Text) : Prop where
  ne : s ≠ []
  newline : '\n' ∉ s
  nul : nul ∉ s
  fits : s.length ≤ lineMax

theorem Clean.colon {s : Text} (h : Clean s) : ':' ∉ s := fun hm => (h _ hm).1 rfl

theorem clean_itoa {v : ℤ} (hv : 0 ≤ v) : Clean (sItoa v) := by
  intro c hc
  have hd := isDigit_of_mem_itoa hv hc
  exact ⟨ne_of_isDigit hd (by decide), ne_of_isDigit hd (by decide), ne_of_isDigit hd (by decide)⟩

theorem clean_toHex (bytes : List UInt8) : Clean (toHex bytes) := by
  have hall : Clean hexd := clean_of_all (by decide)
  exact fun c hc => hall c (mem_hexd_of_mem_toHex hc)

theorem nameOk_chars {name : Text} (h : nameOk name = true) {c : Char} (hc : c ∈ name) :
    c ∉ [':', ',', '\n', '@', ' '] := by
  simp only [nameOk, Bool.and_eq_true, all_eq_true, decide_eq_true_eq] at h
  exact h.2 c hc

theorem nameOk_ne_nil {name : Text} (h : nameOk name = true) : name ≠ [] := by
  simp only [nameOk, Bool.and_eq_true, decide_eq_true_eq] at h
  exact h.1.1

theorem clean_name {name : Text} (h : nameOk name = true ∧ nul ∉ name) : Clean name := by
  intro c hc
  have hchars := nameOk_chars h.1 hc
  refine ⟨?_, ?_, ?_⟩
  · rintro rfl
    exact hchars (by decide)
  · rintro rfl
    exact hchars (by decide)
  · rintro rfl
    exact h.2 hc

theorem clean_append {s t : Text} (hs : Clean s) (ht : Clean t) : Clean (s ++ t) := by
  intro c hc
  rcases mem_append.mp hc with hc | hc
  · exact hs c hc
  · exact ht c hc

theorem Account.Plain.clean_home (h : u.Plain) : Clean u.home := by
  have hroot : Clean "/root".toList := clean_of_all (by decide)
  have hhome : Clean "/home/".toList := clean_of_all (by decide)
  rcases h.home with heq | heq
  · rwa [heq]
  · rw [heq]
    exact clean_append hhome (clean_name h.name)

theorem Account.Plain.home_length (h : u.Plain) : u.home.length ≤ 37 := by
  have hname : u.name.length ≤ 31 := nameOk_length h.name.1
  rcases h.home with heq | heq
  · rw [heq]
    decide
  · rw [heq, length_append]
    have : "/home/".toList.length = 6 := by decide
    omega

def joined (fields : List Text) : Text := [':'].intercalate fields

@[simp] theorem joined_singleton (s : Text) : joined [s] = s := by simp [joined]

@[simp] theorem joined_cons (s t : Text) (ts : List Text) :
    joined (s :: t :: ts) = s ++ ':' :: joined (t :: ts) := by
  simp [joined, intercalate_cons_cons]

theorem length_intercalate_le {sep : Char} {n : ℕ} {ps : List Text} (h : ∀ p ∈ ps, p.length ≤ n) :
    ([sep].intercalate ps).length ≤ (n + 1) * ps.length := by
  induction ps with
  | nil => simp
  | cons p ps ih =>
    have hp := h p mem_cons_self
    have ih := ih fun q hq => h q (mem_cons_of_mem p hq)
    cases ps with
    | nil => simpa using by omega
    | cons q qs =>
      rw [intercalate_cons_cons, length_append, length_append, length_singleton,
        length_cons, Nat.mul_add]
      omega

theorem mem_intercalate {sep c : Char} {ps : List Text} (h : c ∈ [sep].intercalate ps) :
    c = sep ∨ ∃ p ∈ ps, c ∈ p := by
  induction ps with
  | nil => simp at h
  | cons p ps ih =>
    cases ps with
    | nil => exact Or.inr ⟨p, mem_cons_self, by simpa using h⟩
    | cons q qs =>
      rw [intercalate_cons_cons, mem_append, mem_append, mem_singleton] at h
      rcases h with (h | h) | h
      · exact Or.inr ⟨p, mem_cons_self, h⟩
      · exact Or.inl h
      · rcases ih h with h | ⟨r, hr, h⟩
        · exact Or.inl h
        · exact Or.inr ⟨r, mem_cons_of_mem p hr, h⟩

theorem split_intercalate {sep : Char} {ps : List Text} {more : ℕ} (hsep : ∀ p ∈ ps, sep ∉ p)
    (hne : ps ≠ []) (hlen : ps.length ≤ more + 1) : split sep ([sep].intercalate ps) more = ps := by
  induction ps generalizing more with
  | nil => exact absurd rfl hne
  | cons p ps ih =>
    have hp := hsep p mem_cons_self
    cases ps with
    | nil => simpa using split_of_notMem hp more
    | cons q qs =>
      cases more with
      | zero => simp at hlen
      | succ more =>
        rw [intercalate_cons_cons, append_assoc, singleton_append, split_append hp,
          ih (fun r hr => hsep r (mem_cons_of_mem p hr)) (cons_ne_nil q qs)
            (by simpa using hlen)]

structure Lined (text : Text) (ls : List Text) : Prop where
  eq : text = ls.flatMap (· ++ ['\n'])
  whole : ∀ l ∈ ls, Whole l

theorem Lined.append {s t : Text} {ls ks : List Text} (h : Lined s ls) (h' : Lined t ks) :
    Lined (s ++ t) (ls ++ ks) := by
  refine ⟨by rw [h.eq, h'.eq, flatMap_append], fun l hl => ?_⟩
  exact (mem_append.mp hl).elim (h.whole l) (h'.whole l)

theorem lined_flatMap {α : Type*} {xs : List α} {line f : α → Text}
    (h : ∀ x ∈ xs, Lined (line x) [f x]) : Lined (xs.flatMap line) (xs.map f) := by
  refine ⟨?_, fun l hl => ?_⟩
  · rw [flatMap_map]
    exact flatMap_congr fun x hx => by simpa using (h x hx).eq
  · obtain ⟨x, hx, rfl⟩ := mem_map.mp hl
    exact (h x hx).whole _ mem_cons_self

theorem Lined.read {text : Text} {ls : List Text} (h : Lined text ls) : lines [] text = ls := by
  obtain ⟨rfl, hwhole⟩ := h
  induction ls with
  | nil => rfl
  | cons l ls ih =>
    have hl := hwhole l mem_cons_self
    rw [flatMap_cons, append_assoc, singleton_append,
      lines_line hl.ne hl.newline hl.nul hl.fits, ih fun k hk => hwhole k (mem_cons_of_mem l hk)]

structure Written (line : Text) (fields : List Text) (limit : ℕ) : Prop where
  length : (joined fields).length ≤ limit
  lined : Lined line [joined fields]

theorem written {parts fields : List Text} {limit : ℕ} (hclean : ∀ f ∈ fields, Clean f)
    (hne : joined fields ≠ []) (hparts : parts.flatten = joined fields ++ ['\n'])
    (hlen : (joined fields).length ≤ limit) (hlimit : limit < 255) :
    Written (buildLine parts) fields limit := by
  have hchar : ∀ c ∈ joined fields, c ≠ '\n' ∧ c ≠ nul := by
    intro c hc
    rcases mem_intercalate hc with rfl | ⟨f, hf, hc⟩
    · decide
    · exact (hclean f hf c hc).2
  refine ⟨hlen, ?_, ?_⟩
  · rw [buildLine_eq, hparts, take_of_length_le (by rw [length_append, length_singleton]; omega)]
    simp
  · rw [forall_mem_singleton]
    exact ⟨hne, fun hm => (hchar _ hm).1 rfl, fun hm => (hchar _ hm).2 rfl,
      by simp only [lineMax]; omega⟩

theorem Written.line_length {line : Text} {fields : List Text} {limit : ℕ}
    (h : Written line fields limit) : line.length ≤ limit + 1 := by
  have := h.length
  rw [h.lined.eq, flatMap_singleton, length_append, length_singleton]
  omega

theorem split_joined {fields : List Text} {more : ℕ} (h : ∀ f ∈ fields, Clean f) (hne : fields ≠ [])
    (hlen : fields.length ≤ more + 1) : split ':' (joined fields) more = fields :=
  split_intercalate (fun f hf => (h f hf).colon) hne hlen

def intMax : ℤ := 2147483647

def accountFields (u : Account) : List Text :=
  [u.name, sItoa u.uid, sItoa u.gid, sItoa u.type, sItoa u.elevation, u.home]

def nextFields (db : Db) : List Text := ["@nextuid".toList, sItoa db.nextUid, sItoa db.nextGid]

def memberText (g : Group) : Text := [','].intercalate (g.uids.map sItoa)

def groupFields (g : Group) : List Text := ["@group".toList, g.name, sItoa g.gid, memberText g]

def shadowFields (u : Account) : List Text :=
  [u.name, sItoa u.kdfIters, u.saltHex, u.hashHex, sItoa (if u.pwIsDefault then 1 else 0)]

theorem head_joined {s : Text} (h : s ≠ []) (t : Text) (ts : List Text) :
    (joined (s :: t :: ts)).head? = s.head? := by
  cases s with
  | nil => exact absurd rfl h
  | cons c s => simp

theorem int_range {v : ℤ} (h : 0 ≤ v ∧ v < intMax) : 0 ≤ v ∧ v < 10000000000 := by
  have := h.2
  simp only [intMax] at this
  omega

def overlay (u slot : Account) : Account :=
  { slot with
    name := u.name, uid := u.uid, gid := u.gid, type := u.type, elevation := u.elevation
    home := u.home }

section Accounts

variable (hp : u.Plain) (hu : 0 ≤ u.uid ∧ u.uid < intMax)
include hp

theorem gid_range : 0 ≤ u.gid ∧ u.gid < 10000000000 := by
  rcases hp.gid with h | h
  · rw [h]
    decide
  · rw [h]
    decide

theorem elevation_range : 0 ≤ u.elevation ∧ u.elevation < 10000000000 := by
  rcases hp.elevation with h | h
  · rw [h]
    decide
  · rw [h]
    decide

theorem type_range : 0 ≤ u.type ∧ u.type < 10000000000 := by
  rw [hp.type]
  decide

theorem parse_hashed {db : Db} (hhash : u.name.head? = some '#') :
    parsePasswdLine db (joined (accountFields u)) = db := by
  have hhead : (joined (accountFields u)).head? = some '#' := by
    rw [accountFields, head_joined (nameOk_ne_nil hp.name.1), hhash]
  simp [parsePasswdLine, hhead]

include hu

theorem accountFields_clean : ∀ f ∈ accountFields u, Clean f := by
  intro f hf
  simp only [accountFields, mem_cons, not_mem_nil, or_false] at hf
  rcases hf with rfl | rfl | rfl | rfl | rfl | rfl
  · exact clean_name hp.name
  · exact clean_itoa hu.1
  · exact clean_itoa (gid_range hp).1
  · exact clean_itoa (type_range hp).1
  · exact clean_itoa (elevation_range hp).1
  · exact hp.clean_home

theorem account_written : Written (accountLine u) (accountFields u) 88 := by
  refine written (accountFields_clean hp hu) (by simp [accountFields, nameOk_ne_nil hp.name.1])
    (by simp [accountFields]) ?_ (by decide)
  have hname : u.name.length ≤ 31 := nameOk_length hp.name.1
  have h1 := length_itoa_le (int_range hu)
  have h2 : (sItoa u.gid).length ≤ 3 := by
    rcases hp.gid with h | h <;> rw [h] <;> decide
  have h3 : (sItoa u.type).length ≤ 1 := by
    rw [hp.type]
    decide
  have h4 : (sItoa u.elevation).length ≤ 1 := by
    rcases hp.elevation with h | h <;> rw [h] <;> decide
  have h5 := hp.home_length
  simp only [accountFields, joined_cons, joined_singleton, length_append, length_cons]
  omega

theorem fillAccount_eq :
    fillAccount u.name (sItoa u.uid) (sItoa u.gid) (sItoa u.type) (sItoa u.elevation) u.home =
      overlay u := by
  funext slot
  have h1 := sAtoi_sItoa (int_range hu)
  have h2 := sAtoi_sItoa (gid_range hp)
  have h3 := sAtoi_sItoa (type_range hp)
  have h4 := sAtoi_sItoa (elevation_range hp)
  have hhome : sCopy (userPathMax + 1) u.home = u.home :=
    take_of_length_le (by
      have := hp.home_length
      simp only [userPathMax]
      omega)
  simp only [fillAccount, h1, h2, h3, h4, sCopy_name hp.name.1, hhome, overlay]

theorem parse_accountLine {db : Db} (hhash : u.name.head? ≠ some '#') :
    parsePasswdLine db (joined (accountFields u)) = putAccount db u.name (overlay u) := by
  have hsplit : split ':' (joined (accountFields u)) 7 = accountFields u :=
    split_joined (accountFields_clean hp hu) (by simp [accountFields]) (by simp [accountFields])
  obtain ⟨c, cs, hname⟩ := exists_cons_of_ne_nil (nameOk_ne_nil hp.name.1)
  have hc : c ∉ [':', ',', '\n', '@', ' '] := nameOk_chars hp.name.1 (hname ▸ mem_cons_self)
  have hat : c ≠ '@' := by
    rintro rfl
    exact hc (by decide)
  have hne : c ≠ '#' := fun heq => hhash (by rw [hname, heq]; rfl)
  have hhead : (joined (accountFields u)).head? = some c := by
    rw [accountFields, head_joined (nameOk_ne_nil hp.name.1), hname]
    rfl
  simp only [parsePasswdLine, hhead, if_neg hne, if_neg hat, hsplit]
  simp only [accountFields, parsePerson, parseAccount, fillAccount_eq hp hu]

end Accounts

section Counters

variable {db : Db} (huid : 0 ≤ db.nextUid ∧ db.nextUid ≤ intMax)
  (hgid : 0 ≤ db.nextGid ∧ db.nextGid ≤ intMax)
include huid hgid

theorem counter_range : (0 ≤ db.nextUid ∧ db.nextUid < 10000000000) ∧
    0 ≤ db.nextGid ∧ db.nextGid < 10000000000 := by
  simp only [intMax] at huid hgid
  omega

theorem nextFields_clean : ∀ f ∈ nextFields db, Clean f := by
  intro f hf
  simp only [nextFields, mem_cons, not_mem_nil, or_false] at hf
  rcases hf with rfl | rfl | rfl
  · exact clean_of_all (by decide)
  · exact clean_itoa huid.1
  · exact clean_itoa hgid.1

theorem next_written : Written (nextLine db) (nextFields db) 30 := by
  refine written (nextFields_clean huid hgid) (by simp [nextFields]) (by simp [nextFields]) ?_
    (by decide)
  obtain ⟨h1, h2⟩ := counter_range huid hgid
  have h1 := length_itoa_le h1
  have h2 := length_itoa_le h2
  have h3 : "@nextuid".toList.length = 8 := by decide
  simp only [nextFields, joined_cons, joined_singleton, length_append, length_cons]
  omega

theorem parse_nextLine {db' : Db} (h : db'.nextUid ≤ db.nextUid) (h' : db'.nextGid ≤ db.nextGid) :
    parsePasswdLine db' (joined (nextFields db)) =
      { db' with nextUid := db.nextUid, nextGid := db.nextGid } := by
  obtain ⟨h1, h2⟩ := counter_range huid hgid
  have hsplit : split ':' (joined (nextFields db)) 7 = nextFields db :=
    split_joined (nextFields_clean huid hgid) (by simp [nextFields]) (by simp [nextFields])
  have hhead : (joined (nextFields db)).head? = some '@' := by
    rfl
  have hu : (if db'.nextUid < db.nextUid then db.nextUid else db'.nextUid) = db.nextUid := by
    split <;> omega
  have hg : (if db'.nextGid < db.nextGid then db.nextGid else db'.nextGid) = db.nextGid := by
    split <;> omega
  have hmarked : parseMarked db' (nextFields db) =
      parseNext db' (sItoa db.nextUid) (sItoa db.nextGid) := rfl
  rw [parsePasswdLine, hhead, hsplit, hmarked, parseNext, sAtoi_sItoa h1,
    sAtoi_sItoa h2, hu, hg]
  rfl

end Counters

section Groups

variable (hp : g.Plain nextUid nextGid) (huid : nextUid ≤ intMax)
  (hgid : gidUsers ≤ nextGid ∧ nextGid ≤ intMax)

include hp

theorem uids_length : g.uids.length ≤ 16 := by
  have hle := length_filter_le (fun m : ℤ => decide (m ≠ uidNone)) g.members
  have hplaces : g.members.length = 16 := hp.places
  simp only [Group.uids]
  omega

theorem mem_uids {m : ℤ} (hm : m ∈ g.uids) : 0 ≤ m ∧ m < nextUid := by
  obtain ⟨hmem, hne⟩ := mem_filter.mp hm
  rcases hp.members m hmem with h | h
  · exact absurd h (by simpa using hne)
  · exact h

include huid

theorem uid_text {m : ℤ} (hm : m ∈ g.uids) : 0 ≤ m ∧ m < 10000000000 := by
  have := mem_uids hp hm
  simp only [intMax] at huid
  omega

theorem clean_memberText : Clean (memberText g) := by
  intro c hc
  rcases mem_intercalate hc with rfl | ⟨p, hmem, hc⟩
  · decide
  · obtain ⟨m, hm, rfl⟩ := mem_map.mp hmem
    exact clean_itoa (uid_text hp huid hm).1 c hc

theorem length_memberText : (memberText g).length ≤ 176 := by
  have hlen := uids_length hp
  have h : ([','].intercalate (g.uids.map sItoa)).length ≤ (10 + 1) * (g.uids.map sItoa).length := by
    apply length_intercalate_le
    intro p hmem
    obtain ⟨m, hm, rfl⟩ := mem_map.mp hmem
    exact length_itoa_le (uid_text hp huid hm)
  rw [length_map] at h
  simp only [memberText]
  omega

theorem parseMembers_memberText :
    parseMembers (memberText g) = g.uids ++ replicate (16 - g.uids.length) uidNone := by
  have hlen := uids_length hp
  have hfields : ((split ',' (memberText g) 15).filter (· ≠ [])).map sAtoi = g.uids := by
    by_cases hnil : g.uids = []
    · simp [memberText, hnil, split]
    · rw [memberText, split_intercalate _ (by simpa using hnil) (by simpa using hlen),
        filter_eq_self.mpr, map_map]
      · refine (map_congr_left fun m hm => ?_).trans (map_id _)
        exact sAtoi_sItoa (uid_text hp huid hm)
      · intro p hmem
        obtain ⟨m, hm, rfl⟩ := mem_map.mp hmem
        simpa using itoa_ne_nil (uid_text hp huid hm)
      · intro p hmem
        obtain ⟨m, hm, rfl⟩ := mem_map.mp hmem
        exact notMem_itoa (uid_text hp huid hm).1 (by decide)
  simp only [parseMembers, groupMaxMembers, hfields]

def Group.packed (g : Group) : Group :=
  { g with members := g.uids ++ List.replicate (groupMaxMembers - g.uids.length) uidNone }

theorem groupFields_clean : ∀ f ∈ groupFields g, Clean f := by
  intro f hf
  simp only [groupFields, mem_cons, not_mem_nil, or_false] at hf
  rcases hf with rfl | rfl | rfl | rfl
  · exact clean_of_all (by decide)
  · exact clean_name hp.name
  · exact clean_itoa hp.gid.1
  · exact clean_memberText hp huid

include hgid

omit huid in
theorem group_gid_range : 0 ≤ g.gid ∧ g.gid < 10000000000 := by
  have := hp.gid
  simp only [intMax, gidUsers] at hgid this
  omega

theorem group_written : Written (groupLine g) (groupFields g) 226 := by
  refine written (groupFields_clean hp huid) (by simp [groupFields])
    (by simp [groupFields, memberText, intercalate]) ?_ (by decide)
  have hname : g.name.length ≤ 31 := nameOk_length hp.name.1
  have hrange := group_gid_range hp hgid
  have h1 := length_itoa_le hrange
  have h2 := length_memberText hp huid
  have h3 : "@group".toList.length = 6 := by decide
  simp only [groupFields, joined_cons, joined_singleton, length_append, length_cons]
  omega

theorem parse_groupLine {db : Db} :
    parsePasswdLine db (joined (groupFields g)) = putGroup db g.name g.packed := by
  have hsplit : split ':' (joined (groupFields g)) 7 = groupFields g :=
    split_joined (groupFields_clean hp huid) (by simp [groupFields]) (by simp [groupFields])
  have hhead : (joined (groupFields g)).head? = some '@' := by
    rfl
  have hmarked : parseMarked db (groupFields g) =
      parseGroup db g.name (sItoa g.gid) (memberText g) := rfl
  have hrange := group_gid_range hp hgid
  rw [parsePasswdLine, hhead, hsplit, hmarked, parseGroup, sAtoi_sItoa hrange,
    parseMembers_memberText hp huid, sCopy_name hp.name.1]
  rfl

end Groups

section Secrets

-- A password that was set: salt and key in hexadecimal, iterations within the limits.
def Account.SecretSet (u : Account) : Prop :=
  ∃ (salt : Salt) (key : Key),
    u.saltHex = toHex salt.toList ∧ u.hashHex = toHex key.toList ∧ u.kdfIters ≤ 5000000

theorem flag_range (b : Bool) :
    0 ≤ (if b then 1 else 0 : ℤ) ∧ (if b then 1 else 0 : ℤ) < 10000000000 := by
  cases b <;> decide

def withSecret (u slot : Account) : Account :=
  { slot with
    kdfIters := u.kdfIters, saltHex := u.saltHex, hashHex := u.hashHex, hasPassword := true
    pwIsDefault := u.pwIsDefault }

variable (hs : u.SecretSet)
include hs

theorem shadow_range : (0 ≤ (u.kdfIters : ℤ) ∧ (u.kdfIters : ℤ) < 10000000000) ∧
    u.saltHex.length = 32 ∧ u.hashHex.length = 64 := by
  obtain ⟨salt, key, hsalt, hhash, hiters⟩ := hs
  refine ⟨by omega, ?_, ?_⟩
  · rw [hsalt, length_toHex, Vector.length_toList]
  · rw [hhash, length_toHex, Vector.length_toList]

theorem fillSecret_eq :
    fillSecret (sItoa u.kdfIters) u.saltHex u.hashHex
      (some (sItoa (if u.pwIsDefault then 1 else 0))) = withSecret u := by
  funext slot
  obtain ⟨hiters, hsalt, hhash⟩ := shadow_range hs
  have hmod : ((u.kdfIters : ℤ) % 4294967296).toNat = u.kdfIters := by
    obtain ⟨-, -, -, -, hle⟩ := hs
    omega
  have hflag := sAtoi_sItoa (flag_range u.pwIsDefault)
  have hdefault : decide ((if u.pwIsDefault then 1 else 0 : ℤ) ≠ 0) = u.pwIsDefault := by
    cases u.pwIsDefault <;> rfl
  have h1 : sCopy (2 * userSaltBytes + 1) u.saltHex = u.saltHex :=
    take_of_length_le (by simp [hsalt, userSaltBytes])
  have h2 : sCopy 65 u.hashHex = u.hashHex := take_of_length_le (by simp [hhash])
  simp only [fillSecret, sAtoi_sItoa hiters, hmod, Option.elim_some, hflag, hdefault, h1,
    h2, withSecret]

variable (hp : u.Plain)
include hp

theorem shadowFields_clean : ∀ f ∈ shadowFields u, Clean f := by
  obtain ⟨salt, key, hsalt, hhash, hiters⟩ := hs
  intro f hf
  simp only [shadowFields, mem_cons, not_mem_nil, or_false] at hf
  rcases hf with rfl | rfl | rfl | rfl | rfl
  · exact clean_name hp.name
  · exact clean_itoa (by omega)
  · rw [hsalt]
    exact clean_toHex _
  · rw [hhash]
    exact clean_toHex _
  · exact clean_itoa (flag_range u.pwIsDefault).1

theorem shadow_written : Written (shadowLine u) (shadowFields u) 151 := by
  refine written (shadowFields_clean hs hp) (by simp [shadowFields, nameOk_ne_nil hp.name.1])
    (by simp [shadowFields]) ?_ (by decide)
  have hname : u.name.length ≤ 31 := nameOk_length hp.name.1
  obtain ⟨hiters, hsalt, hhash⟩ := shadow_range hs
  have h1 := length_itoa_le hiters
  have h2 := length_itoa_le (flag_range u.pwIsDefault)
  simp only [shadowFields, joined_cons, joined_singleton, length_append, length_cons]
  omega

omit hs in
theorem head_shadowFields : (joined (shadowFields u)).head? = u.name.head? :=
  head_joined (nameOk_ne_nil hp.name.1) _ _

theorem parse_shadowLine {db : Db} (hhash : u.name.head? ≠ some '#') :
    parseShadowLine db (joined (shadowFields u)) =
      { db with users := db.users.update (·.name == u.name) fun slot => some (withSecret u slot) } := by
  have hsplit : split ':' (joined (shadowFields u)) 5 = shadowFields u :=
    split_joined (shadowFields_clean hs hp) (by simp [shadowFields]) (by simp [shadowFields])
  obtain ⟨c, cs, hname⟩ := exists_cons_of_ne_nil (nameOk_ne_nil hp.name.1)
  have hne : c ≠ '#' := fun heq => hhash (by rw [hname, heq]; rfl)
  have hhead : (joined (shadowFields u)).head? = some c := by
    rw [head_shadowFields hp, hname]
    rfl
  simp only [parseShadowLine, hhead, if_neg hne, hsplit]
  simp only [shadowFields, parseSecret, head?_cons, fillSecret_eq hs]

omit hs in
theorem parse_shadow_hashed {db : Db} (hhash : u.name.head? = some '#') :
    parseShadowLine db (joined (shadowFields u)) = db := by
  simp [parseShadowLine, head_shadowFields hp, hhash]

end Secrets

end DosKernel.Users
