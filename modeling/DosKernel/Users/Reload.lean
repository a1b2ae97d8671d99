import DosKernel.Users.Lines

namespace DosKernel.Users

open DosKernel.Identity DosKernel.Lib SlotTable List Users.Group

variable {kdf : Kdf} {salt : Salt} {db : Db} {u : Account}

def Db.InRange (db : Db) : Prop := db.nextUid ≤ intMax ∧ db.nextGid ≤ intMax

-- A line that starts like this is a comment to the reader.
def kept (u : Account) : Bool := decide (u.name.head? ≠ some '#')

def loaded (kdf : Kdf) (salt : Salt) (u : Account) : Account :=
  overlay u (if u.name = rootName then rootAccount kdf salt else blankAccount)

@[simp] theorem loaded_name : (loaded kdf salt u).name = u.name := rfl

theorem map_loaded_name (us : List Account) :
    (us.map (loaded kdf salt)).map Account.name = us.map Account.name := by
  simp [map_map, Function.comp_def]

def overGroups (gs : List Group) (g : Group) : List Group :=
  if userMaxGroups ≤ gs.length then gs
  else if g.name ∈ gs.map Group.name then gs.map fun k => if k.name = g.name then g.packed else k
  else gs ++ [g.packed]

theorem fold_accounts {xs us : List Account} (hnames : ((xs ++ us).map Account.name).Nodup)
    (hlen : xs.length + us.length ≤ userMaxAccounts) (hroot : ∀ u ∈ us, u.name ≠ rootName)
    (hplain : ∀ u ∈ us, u.Plain ∧ 0 ≤ u.uid ∧ u.uid < intMax)
    (husers : db.users = packed userMaxAccounts (xs.map (loaded kdf salt))) :
    (us.map fun u => joined (accountFields u)).foldl parsePasswdLine db =
      { db with users := packed userMaxAccounts ((xs ++ us.filter kept).map (loaded kdf salt)) } := by
  induction us generalizing xs db with
  | nil => simp [← husers]
  | cons u us ih =>
    obtain ⟨hp, hrange⟩ := hplain u mem_cons_self
    have hroot' : ∀ w ∈ us, w.name ≠ rootName := fun w hw => hroot w (mem_cons_of_mem u hw)
    have hplain' : ∀ w ∈ us, w.Plain ∧ 0 ≤ w.uid ∧ w.uid < intMax :=
      fun w hw => hplain w (mem_cons_of_mem u hw)
    rw [length_cons] at hlen
    rw [map_cons, foldl_cons]
    by_cases hhash : u.name.head? = some '#'
    · have hnodup : ((xs ++ us).map Account.name).Nodup :=
        hnames.sublist (((sublist_cons_self u us).append_left xs).map _)
      rw [parse_hashed hp hhash, ih hnodup (by omega) hroot' hplain' husers,
        filter_cons_of_neg (by simp [kept, hhash])]
    · have hfresh : userByName db u.name = none := by
        rw [userByName, husers]
        refine find_none.mpr fun w hw => ?_
        rw [live_packed] at hw
        obtain ⟨x, hx, rfl⟩ := mem_map.mp hw
        rw [map_append, nodup_append] at hnames
        simpa using hnames.2.2 x.name (mem_map_of_mem hx) u.name (by simp)
      have hover : overlay u blankAccount = loaded kdf salt u := by
        rw [loaded, if_neg (hroot u mem_cons_self)]
      have hput : putAccount db u.name (overlay u) =
          { db with users := packed userMaxAccounts ((xs ++ [u]).map (loaded kdf salt)) } := by
        rw [putAccount, hfresh, husers, hover,
          insert_packed (by rw [length_map]; omega), map_append]
        rfl
      have hassoc : xs ++ u :: us = (xs ++ [u]) ++ us := by simp
      rw [parse_accountLine hp hrange hhash, hput]
      rw [hassoc] at hnames
      rw [ih hnames (by simpa using by omega) hroot' hplain' rfl,
        filter_cons_of_pos (by simpa [kept] using hhash)]
      simp

theorem overGroups_nodup {gs : List Group} {g : Group} (h : (gs.map name).Nodup) :
    ((overGroups gs g).map name).Nodup := by
  unfold overGroups
  split
  · exact h
  · split
    · have hsame : (gs.map fun k => if k.name = g.name then g.packed else k).map name =
          gs.map name := by
        rw [map_map]
        refine map_congr_left fun k _ => ?_
        by_cases hk : k.name = g.name
        · simp [hk, Group.packed]
        · simp [hk]
      rwa [hsame]
    · next hnew =>
      rw [map_append, nodup_append]
      refine ⟨h, nodup_singleton _, ?_⟩
      intro a ha b hb heq
      obtain rfl : b = g.name := by simpa [Group.packed] using hb
      exact hnew (heq ▸ ha)

theorem putGroup_packed {gs : List Group} (hgroups : db.groups = packed userMaxGroups gs)
    (hnames : (gs.map name).Nodup) (g : Group) :
    putGroup db g.name g.packed = { db with groups := packed userMaxGroups (overGroups gs g) } := by
  have hfind : (groupByName db g.name).isSome = true ↔ g.name ∈ gs.map name := by
    rw [groupByName, hgroups, find, live_packed, find?_isSome]
    simp [mem_map]
  by_cases hfull : userMaxGroups ≤ gs.length
  · rw [putGroup, hgroups, insert_packed_full hfull, overGroups, if_pos hfull, ← hgroups]
  · rw [putGroup, hgroups, insert_packed (by omega), overGroups, if_neg hfull]
    by_cases hmem : g.name ∈ gs.map name
    · simp only [hfind.mpr hmem, if_pos hmem, if_true]
      rw [update_packed hnames g.name fun _ => g.packed]
    · have hnone : ¬(groupByName db g.name).isSome = true := fun h => hmem (hfind.mp h)
      simp only [if_neg hnone, if_neg hmem]

theorem fold_groups {gs ks : List Group} {nextUid nextGid : ℤ} (hnames : (gs.map name).Nodup)
    (hplain : ∀ k ∈ ks, k.Plain nextUid nextGid) (huid : nextUid ≤ intMax)
    (hgid : gidUsers ≤ nextGid ∧ nextGid ≤ intMax)
    (hgroups : db.groups = packed userMaxGroups gs) :
    (ks.map fun k => joined (groupFields k)).foldl parsePasswdLine db =
      { db with groups := packed userMaxGroups (ks.foldl overGroups gs) } := by
  induction ks generalizing gs db with
  | nil => simp [← hgroups]
  | cons k ks ih =>
    have hk := hplain k mem_cons_self
    rw [map_cons, foldl_cons, parse_groupLine hk huid hgid, putGroup_packed hgroups hnames,
      ih (overGroups_nodup hnames) (fun j hj => hplain j (mem_cons_of_mem k hj)) rfl]
    rfl

def passwdTitle : Text := passwdHeader.dropLast

def groupsTitle : Text := groupsHeader.dropLast

def shadowTitle : Text := shadowHeader.dropLast

theorem title_lined : Lined passwdHeader [passwdTitle] ∧ Lined groupsHeader [groupsTitle] ∧
    Lined shadowHeader [shadowTitle] := by
  refine ⟨⟨by decide, ?_⟩, ⟨by decide, ?_⟩, ⟨by decide, ?_⟩⟩ <;> rw [forall_mem_singleton]
  · exact ⟨by decide, by decide, by decide, by decide⟩
  · exact ⟨by decide, by decide, by decide, by decide⟩
  · exact ⟨by decide, by decide, by decide, by decide⟩

theorem parse_title {db : Db} :
    parsePasswdLine db passwdTitle = db ∧ parseShadowLine db shadowTitle = db := ⟨rfl, rfl⟩

section Passwd

variable (h : db.Sound) (hrange : db.InRange)
include h hrange

theorem account_range (hu : u ∈ db.users.live) : u.Plain ∧ 0 ≤ u.uid ∧ u.uid < intMax := by
  have hissued := h.accounts.issued u hu
  have hle := hrange.1
  exact ⟨h.accounts.plain u hu, hissued.1, by omega⟩

theorem counters_range :
    (0 ≤ db.nextUid ∧ db.nextUid ≤ intMax) ∧ 0 ≤ db.nextGid ∧ db.nextGid ≤ intMax := by
  have h1 := h.accounts.first
  have h2 := h.groups.first
  simp only [userUidFirst, gidUsers] at h1 h2
  exact ⟨⟨by omega, hrange.1⟩, by omega, hrange.2⟩

def passwdLines (db : Db) : List Text :=
  passwdTitle :: joined (nextFields db) :: (db.users.live.map fun u => joined (accountFields u)) ++
    groupsTitle :: db.groups.live.map fun g => joined (groupFields g)

theorem lined_savePasswd : Lined (savePasswd db) (passwdLines db) := by
  obtain ⟨huid, hgid⟩ := counters_range h hrange
  have haccounts : Lined (db.users.live.flatMap accountLine)
      (db.users.live.map fun u => joined (accountFields u)) :=
    lined_flatMap fun u hu =>
      (account_written (account_range h hrange hu).1 (account_range h hrange hu).2).lined
  have hgroups : Lined (db.groups.live.flatMap groupLine)
      (db.groups.live.map fun g => joined (groupFields g)) :=
    lined_flatMap fun g hg =>
      (group_written (h.groups.plain g hg) hrange.1 ⟨h.groups.first, hrange.2⟩).lined
  have hfile := (((title_lined.1.append (next_written huid hgid).lined).append haccounts).append
    title_lined.2.1).append hgroups
  simpa [savePasswd, passwdLines] using hfile

def restoredGroups (db : Db) : List Group := db.groups.live.foldl overGroups [adminsGroup, usersGroup]

theorem load_passwd (hfit : (savePasswd db).length ≤ fileMax) :
    loadFile parsePasswdLine (usersInit kdf salt) (savePasswd db) =
      { users := packed userMaxAccounts ((db.users.live.filter kept).map (loaded kdf salt))
        groups := packed userMaxGroups (restoredGroups db)
        nextUid := db.nextUid
        nextGid := db.nextGid } := by
  obtain ⟨huid, hgid⟩ := counters_range h hrange
  obtain ⟨r, t, husers, hrname, -⟩ := h.accounts.root
  have hlive : db.users.live = r :: live t := by rw [husers, live_some_cons]
  have hr : r ∈ db.users.live := by rw [hlive]; exact mem_cons_self
  obtain ⟨hrplain, hrrange⟩ := account_range h hrange hr
  have hnames := h.accounts.names
  rw [hlive, map_cons, nodup_cons] at hnames
  have hkept : kept r = true := by
    rw [kept, hrname]
    decide
  -- root's own line goes over the built-in account
  have hroot : ∀ d : Db, d.users = packed userMaxAccounts [rootAccount kdf salt] →
      parsePasswdLine d (joined (accountFields r)) =
        { d with users := packed userMaxAccounts ([r].map (loaded kdf salt)) } := by
    intro d hd
    have hfind : userByName d r.name = some (rootAccount kdf salt) := by
      rw [userByName, hd, find, live_packed, hrname]
      rfl
    have hupdate : d.users.update (·.name == r.name) (fun slot => some (overlay r slot)) =
        packed userMaxAccounts ([r].map (loaded kdf salt)) := by
      rw [hd, update_packed (by simp) r.name (overlay r), map_singleton, map_singleton,
        if_pos (show (rootAccount kdf salt).name = r.name from hrname.symm), loaded, if_pos hrname]
    rw [parse_accountLine hrplain hrrange (by simpa [kept] using hkept), putAccount, hfind, hupdate]
    rfl
  have hothers : ∀ u ∈ live t, u ∈ db.users.live := fun u hu => by
    rw [hlive]
    exact mem_cons_of_mem r hu
  have hlen : [r].length + (live t).length ≤ userMaxAccounts := by
    have := live_length_le db.users
    rw [h.accounts.slots, hlive, length_cons] at this
    simpa [Nat.add_comm] using this
  have hnodup : (([r] ++ live t).map Account.name).Nodup := by
    simpa using hnames
  have hnotRoot : ∀ u ∈ live t, u.name ≠ rootName := by
    intro u hu heq
    exact hnames.1 (mem_map.mpr ⟨u, hu, heq.trans hrname.symm⟩)
  have hbuiltin : ([adminsGroup, usersGroup].map name).Nodup := by decide
  have hlines : lines [] ((savePasswd db).take fileMax) = passwdLines db := by
    rw [take_of_length_le hfit, (lined_savePasswd h hrange).read]
  rw [loadFile, hlines, passwdLines, hlive, map_cons, cons_append, cons_append,
    cons_append, foldl_cons, foldl_cons, foldl_cons, foldl_append,
    foldl_cons, parse_title.1,
    parse_nextLine huid hgid h.accounts.first h.groups.first, hroot _ rfl,
    fold_accounts hnodup hlen hnotRoot (fun u hu => account_range h hrange (hothers u hu)),
    fold_groups hbuiltin h.groups.plain hrange.1 ⟨h.groups.first, hrange.2⟩,
    filter_cons_of_pos hkept]
  · rfl
  · rfl
  · rfl

end Passwd

section Shadow

def overSecret (u slot : Account) : Account := if slot.name = u.name then withSecret u slot else slot

@[simp] theorem overSecret_name (u slot : Account) : (overSecret u slot).name = slot.name := by
  unfold overSecret
  split <;> rfl

theorem fold_secrets {us ys : List Account} (hnames : (ys.map Account.name).Nodup)
    (hplain : ∀ u ∈ us, u.Plain ∧ u.SecretSet)
    (husers : db.users = packed userMaxAccounts ys) :
    (us.map fun u => joined (shadowFields u)).foldl parseShadowLine db =
      { db with
        users := packed userMaxAccounts
          (ys.map fun y => (us.filter kept).foldl (fun y u => overSecret u y) y) } := by
  induction us generalizing ys db with
  | nil => simp [← husers]
  | cons u us ih =>
    obtain ⟨hp, hs⟩ := hplain u mem_cons_self
    have hplain' : ∀ w ∈ us, w.Plain ∧ w.SecretSet := fun w hw => hplain w (mem_cons_of_mem u hw)
    rw [map_cons, foldl_cons]
    by_cases hhash : u.name.head? = some '#'
    · rw [parse_shadow_hashed hp hhash, ih hnames hplain' husers,
        filter_cons_of_neg (by simp [kept, hhash])]
    · have hnames' : ((ys.map (overSecret u)).map Account.name).Nodup := by
        simpa [map_map, Function.comp_def] using hnames
      rw [parse_shadowLine hs hp hhash, husers, update_packed hnames u.name (withSecret u)]
      rw [ih hnames' hplain' rfl, filter_cons_of_pos (by simpa [kept] using hhash), map_map]
      rfl

theorem foldl_overSecret_other {us : List Account} {slot : Account}
    (h : ∀ u ∈ us, u.name ≠ slot.name) : us.foldl (fun y u => overSecret u y) slot = slot := by
  induction us with
  | nil => rfl
  | cons u us ih =>
    rw [foldl_cons, overSecret, if_neg (Ne.symm (h u mem_cons_self))]
    exact ih fun w hw => h w (mem_cons_of_mem u hw)

theorem foldl_overSecret_self {us : List Account} {v slot : Account}
    (hnames : (us.map Account.name).Nodup) (hv : v ∈ us) (hslot : slot.name = v.name) :
    us.foldl (fun y u => overSecret u y) slot = withSecret v slot := by
  induction us with
  | nil => cases hv
  | cons u us ih =>
    rw [map_cons, nodup_cons] at hnames
    rw [foldl_cons]
    rcases mem_cons.mp hv with rfl | hv
    · rw [overSecret, if_pos hslot]
      refine foldl_overSecret_other fun w hw heq => hnames.1 ?_
      rw [← hslot]
      exact mem_map.mpr ⟨w, hw, heq⟩
    · have hne : slot.name ≠ u.name := by
        rw [hslot]
        rintro heq
        exact hnames.1 (heq ▸ mem_map_of_mem hv)
      rw [overSecret, if_neg hne]
      exact ih hnames.2 hv

def restored (kdf : Kdf) (salt : Salt) (u : Account) : Account :=
  if u.hasPassword then u else loaded kdf salt u

theorem withSecret_loaded (hpw : u.hasPassword = true) : withSecret u (loaded kdf salt u) = u := by
  rw [loaded]
  cases u
  simp only [withSecret, overlay] at hpw ⊢
  rw [hpw]

def Db.SecretsSet (db : Db) : Prop := ∀ u ∈ db.users.live, u.hasPassword = true → u.SecretSet

def shadowLines (db : Db) : List Text :=
  shadowTitle :: (db.users.live.filter (·.hasPassword)).map fun u => joined (shadowFields u)

variable (h : db.Sound) (hsecrets : db.SecretsSet)
include h hsecrets

theorem secret_plain : ∀ u ∈ db.users.live.filter (·.hasPassword), u.Plain ∧ u.SecretSet := by
  intro u hu
  obtain ⟨hu, hpw⟩ := mem_filter.mp hu
  exact ⟨h.accounts.plain u hu, hsecrets u hu hpw⟩

theorem lines_saveShadow (hfit : (saveShadow db).length ≤ fileMax) :
    lines [] ((saveShadow db).take fileMax) = shadowLines db := by
  have hplain := secret_plain h hsecrets
  have hbody : Lined ((db.users.live.filter (·.hasPassword)).flatMap shadowLine)
      ((db.users.live.filter (·.hasPassword)).map fun u => joined (shadowFields u)) :=
    lined_flatMap fun u hu => (shadow_written (hplain u hu).2 (hplain u hu).1).lined
  rw [take_of_length_le hfit]
  exact (title_lined.2.2.append hbody).read

theorem reboot_eq (hrange : db.InRange) (hpasswd : (savePasswd db).length ≤ fileMax)
    (hshadow : (saveShadow db).length ≤ fileMax) :
    reboot kdf salt db =
      { users := packed userMaxAccounts ((db.users.live.filter kept).map (restored kdf salt))
        groups := packed userMaxGroups (restoredGroups db)
        nextUid := db.nextUid
        nextGid := db.nextGid } := by
  have hnames : (((db.users.live.filter kept).map (loaded kdf salt)).map Account.name).Nodup := by
    rw [map_loaded_name]
    exact h.accounts.names.sublist (filter_sublist.map _)
  have hsecretNames :
      (((db.users.live.filter (·.hasPassword)).filter kept).map Account.name).Nodup :=
    h.accounts.names.sublist ((filter_sublist.trans filter_sublist).map _)
  have hslot : ∀ u ∈ db.users.live.filter kept,
      ((db.users.live.filter (·.hasPassword)).filter kept).foldl (fun y u => overSecret u y)
        (loaded kdf salt u) = restored kdf salt u := by
    intro u hu
    obtain ⟨hu, hkept⟩ := mem_filter.mp hu
    rw [restored]
    split
    · next hpw =>
      rw [foldl_overSecret_self hsecretNames _ loaded_name, withSecret_loaded hpw]
      exact mem_filter.mpr ⟨mem_filter.mpr ⟨hu, hpw⟩, hkept⟩
    · next hpw =>
      refine foldl_overSecret_other fun w hw heq => hpw ?_
      obtain ⟨hw, hwpw⟩ := mem_filter.mp (mem_filter.mp hw).1
      rwa [← key_inj h.accounts.names hw hu heq]
  rw [reboot, boot, load_passwd h hrange hpasswd, loadFile, lines_saveShadow h hsecrets hshadow,
    shadowLines, foldl_cons, parse_title.2,
    fold_secrets hnames (secret_plain h hsecrets) rfl, map_map]
  simp only [Function.comp_def]
  rw [map_congr_left hslot]

end Shadow

end DosKernel.Users
