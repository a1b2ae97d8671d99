import DosKernel.Lib.Run
import DosKernel.Vfs.Boot
import DosKernel.Vfs.Calls
import DosKernel.Vfs.Tree

namespace DosKernel.Vfs

open DosKernel.Lib Relation Fills

variable {ψ : Type} {drv : Drivers ψ} {c : Caller} {s t : State ψ}

inductive Mutation where
  | make (kind : MakeKind) (path : Path)
  | link (oldpath newpath : Path)
  | symlink (target linkpath : Path)
  | unlink (path : Path)
  | rename (oldpath newpath : Path)
  | replace (oldpath newpath : Path)

def Mutation.run (drv : Drivers ψ) (c : Caller) (s : State ψ) : Mutation → Int × State ψ
  | .make kind path => vfsMutator drv c kind s path
  | .link oldpath newpath => vfsLink drv c s oldpath newpath
  | .symlink target linkpath => vfsSymlink drv c s target linkpath
  | .unlink path => vfsUnlink drv c s path
  | .rename oldpath newpath => vfsRename drv c s oldpath newpath
  | .replace oldpath newpath => vfsRenameReplace drv c s oldpath newpath

def renamePhase (drv : Drivers ψ) (c : Caller) (s : State ψ) (oldpath newpath : Path) :
    State ψ × State ψ :=
  ((locateBoth drv c s oldpath newpath).2, (vfsRename drv c s oldpath newpath).2)

-- The tree before and after each change of a call: the one before is what its walk leaves.
def Mutation.phases (drv : Drivers ψ) (c : Caller) (s : State ψ) :
    Mutation → List (State ψ × State ψ)
  | .make kind path => [((locate drv c s path).2, (vfsMutator drv c kind s path).2)]
  | .link oldpath newpath =>
    [((locateLink drv c s oldpath newpath).2, (vfsLink drv c s oldpath newpath).2)]
  | .symlink target linkpath =>
    [((locateSymlink drv c s target linkpath).2, (vfsSymlink drv c s target linkpath).2)]
  | .unlink path => [((unlinkTarget drv c s path).2, (vfsUnlink drv c s path).2)]
  | .rename oldpath newpath => [renamePhase drv c s oldpath newpath]
  | .replace oldpath newpath =>
    let s1 := (locateBoth drv c s oldpath newpath).2
    match vfsRename drv c s1 oldpath newpath with
    | (r, s2) =>
      if r ≠ -2 then [renamePhase drv c s1 oldpath newpath]
      else
        let s3 := (replaceCheck drv c s2 oldpath newpath).2
        let s4 := (vfsUnlink drv c s3 newpath).2
        [renamePhase drv c s1 oldpath newpath, ((unlinkTarget drv c s3 newpath).2, s4),
          renamePhase drv c s4 oldpath newpath]

-- Every directory still there whose names changed is one the caller may write.
def Authorized (c : Caller) (s t : State ψ) : Prop :=
  ∀ x dir, s.inodeOf x = some dir → (t.dentries.get x).isSome →
    (∃ nm, (s.findChild x nm).isSome ≠ (t.findChild x nm).isSome) →
    permitted c.cred dir permWrite = true

def AuthorizedCall (drv : Drivers ψ) (c : Caller) (s : State ψ) (call : Mutation) : Prop :=
  ∀ phase ∈ call.phases drv c s, Authorized c phase.1 phase.2

def sameDirectory (drv : Drivers ψ) (c : Caller) (s : State ψ) (oldpath newpath : Path) :
    Option Inode :=
  match locateBoth drv c s oldpath newpath with
  | (.ok (op, _, np, _), s1) => if op = np then s1.inodeOf op else none
  | _ => none

-- The directory within which a call that goes through renames an entry, if it does.
def Mutation.localRename (drv : Drivers ψ) (c : Caller) (s : State ψ) : Mutation → Option Inode
  | .rename oldpath newpath => sameDirectory drv c s oldpath newpath
  | .replace oldpath newpath =>
    let s1 := (locateBoth drv c s oldpath newpath).2
    match vfsRename drv c s1 oldpath newpath with
    | (r, s2) =>
      if r ≠ -2 then sameDirectory drv c s1 oldpath newpath
      else
        let s3 := (replaceCheck drv c s2 oldpath newpath).2
        sameDirectory drv c (vfsUnlink drv c s3 newpath).2 oldpath newpath
  | _ => none

theorem authorized_of_findChild (h : ∀ x nm, t.findChild x nm = s.findChild x nm) :
    Authorized c s t := by
  rintro x dir - - ⟨nm, hne⟩
  rw [h] at hne
  exact absurd rfl hne

theorem Outcome.authorized {P : State ψ → Prop} {r : Int × State ψ} (h : Outcome s P r)
    (hP : ∀ t, P t → Authorized c s t) : Authorized c s r.2 := by
  obtain ⟨-, v, heq⟩ | ⟨-, h⟩ := h
  · rw [heq]
    exact authorized_of_findChild fun _ _ => rfl
  · exact hP _ h

theorem Outcome.authorized_of_ne {P : State ψ → Prop} {r : Int × State ψ} (h : Outcome s P r)
    (hr : r.1 ≠ 0) : Authorized c s r.2 := by
  obtain ⟨-, v, heq⟩ | ⟨h0, -⟩ := h
  · rw [heq]
    exact authorized_of_findChild fun _ _ => rfl
  · exact absurd h0 hr

theorem authorized_of_one {p : DentryId} {dir : Inode} (hdir : s.inodeOf p = some dir)
    (hperm : permitted c.cred dir permWrite = true)
    (h : ∀ x, (s.inodeOf x).isSome → (t.dentries.get x).isSome → x ≠ p →
      ∀ nm, t.findChild x nm = s.findChild x nm) : Authorized c s t := by
  rintro x dir' hx hlive ⟨nm, hne⟩
  by_cases hxp : x = p
  · subst hxp
    rw [hdir] at hx
    cases hx
    exact hperm
  · rw [h x (by simp [hx]) hlive hxp] at hne
    exact absurd rfl hne

section Phases

variable (ht : Tree s)
include ht

theorem Fills.tree (h : Fills drv s t) : Tree t :=
  (changes (c := kernelTask) (G := fun _ _ => true) h).tree ht

theorem MadeIn.authorized (h : MadeIn drv c s t) : Authorized c s t := by
  obtain ⟨p, dir, last, ⟨hdir, -, hlen⟩, h⟩ := h
  refine authorized_of_one hdir h.1 fun x _ _ hxp nm => ?_
  rw [(h.entries ht hdir hlen).2, if_neg fun h => hxp h.1]

theorem vfsMutator_authorized (kind : MakeKind) (path : Path) :
    Authorized c (locate drv c s path).2 (vfsMutator drv c kind s path).2 :=
  (vfsMutator_outcome kind path).authorized
    fun _ => MadeIn.authorized (tree ht (locate_seeks drv c s path).fills)

theorem vfsSymlink_authorized (target linkpath : Path) :
    Authorized c (locateSymlink drv c s target linkpath).2
      (vfsSymlink drv c s target linkpath).2 :=
  (vfsSymlink_outcome target linkpath).authorized
    fun _ => MadeIn.authorized (tree ht (locateSymlink_seeks drv c s target linkpath).fills)

theorem vfsLink_authorized (old new : Path) :
    Authorized c (locateLink drv c s old new).2 (vfsLink drv c s old new).2 := by
  have ht1 := tree ht (locateLink_seeks drv c s old new).fills
  refine (vfsLink_outcome old new).authorized fun t h => ?_
  obtain ⟨src, p, dir, last, ⟨hdir, -, hlen⟩, h⟩ := h
  refine authorized_of_one hdir h.1 fun x _ _ hxp nm => ?_
  rw [(h.entries ht1 hdir hlen).2, if_neg fun h => hxp h.1]

variable (drv c) in
theorem vfsUnlink_authorized (path : Path) :
    Authorized c (unlinkTarget drv c s path).2 (vfsUnlink drv c s path).2 := by
  have ht1 := tree ht (unlinkTarget_seeks drv c s path).fills
  refine vfsUnlink_outcome.authorized fun t h => ?_
  obtain ⟨p, dir, d, last, i, ino, -, hdir, -, hrem, h⟩ := h
  refine authorized_of_one hdir hrem.allowed fun x _ hlive hxp nm => ?_
  rw [(h.entries ht1 hrem).2 hlive, if_neg fun h => hxp h.1]

theorem vfsRename_authorized_iff {old new : Path} (h0 : (vfsRename drv c s old new).1 = 0) :
    Authorized c (locateBoth drv c s old new).2 (vfsRename drv c s old new).2 ↔
      (sameDirectory drv c s old new).all (permitted c.cred · permWrite) = true := by
  have ht1 := tree ht (locateBoth_seeks drv c s old new).fills
  have hout : Outcome _ _ (vfsRename drv c s old new) := vfsRename_outcome
  obtain ⟨hne, -⟩ | ⟨-, op, olast, np, nlast, hloc, hdone⟩ := hout
  · exact absurd h0 hne
  have hsame : sameDirectory drv c s old new =
      if op = np then (locateBoth drv c s old new).2.inodeOf op else none := by
    unfold sameDirectory
    rw [show locateBoth drv c s old new = (.ok (op, olast, np, nlast), _) from Prod.ext hloc rfl]
  rw [hsame]
  generalize (vfsRename drv c s old new).2 = t at hdone ⊢
  obtain ⟨hop, h⟩ | ⟨rfl, h⟩ := hdone
  · -- `vfs_move` checks both directories
    rw [if_neg hop]
    refine iff_of_true ?_ rfl
    obtain ⟨-, d, hfind⟩ := h.entries ht1 hop
    obtain ⟨odir, dir, _, _, _, _, _, _, hodir, -, hdir, -, -, hoperm, hperm, -⟩ := h
    rintro x xdir hx - ⟨nm, hne⟩
    by_cases hxp : x = np
    · rw [hxp, hdir] at hx
      cases hx
      exact hperm
    · by_cases hxo : x = op
      · rw [hxo, hodir] at hx
        cases hx
        exact hoperm
      · rw [hfind, if_neg fun h => hxp h.1, if_neg fun h => hxo h.1] at hne
        exact absurd rfl hne
  · rw [if_pos rfl]
    obtain ⟨-, d, hold, hnew, hfind⟩ := h.entries ht1
    obtain ⟨dir, _, _, _, _, _, _, hdir, -⟩ := h
    rw [hdir]
    constructor
    · -- the old name is gone from the directory, so its set of names has changed
      intro h
      refine h op dir hdir ?_ ⟨olast, ?_⟩
      · exact live_of_findChild (show t.findChild op nlast = some d by rw [hfind, if_pos ⟨rfl, rfl⟩])
      · have hnames : olast ≠ nlast := fun he => by simp [he, hnew] at hold
        rw [hfind, if_neg fun h => hnames h.2, if_pos ⟨rfl, rfl⟩, hold]
        simp
    · intro hperm
      refine authorized_of_one hdir hperm fun x _ _ hxp nm => ?_
      rw [hfind, if_neg fun h => hxp h.1, if_neg fun h => hxp h.1]

end Phases

theorem guarded_true (path : Path) : guarded drv c (fun _ _ => true) s path = true := by
  unfold guarded
  split <;> rfl

-- Replacing a target: the first rename finds it in the way, it is unlinked, the rename tried again.
theorem vfsRenameReplace_authorized_iff (ht : Tree s) {old new : Path}
    (h0 : (vfsRenameReplace drv c s old new).1 = 0) :
    AuthorizedCall drv c s (.replace old new) ↔
      ((Mutation.replace old new).localRename drv c s).all (permitted c.cred · permWrite) = true := by
  have hseeks := locateBoth_seeks drv c s old new
  have ht1 := tree ht hseeks.fills
  unfold vfsRenameReplace at h0
  unfold AuthorizedCall Mutation.phases Mutation.localRename
  rcases hloc : locateBoth drv c s old new with ⟨r | _, s1⟩ <;> simp only [hloc] at h0 hseeks ht1 ⊢
  · exact absurd h0 (hseeks.error rfl)
  have hfirst : Changes drv c (fun _ _ => true) s1 _ := vfsRename_changes old new
  rcases hren : vfsRename drv c s1 old new with ⟨r, s2⟩
  simp only [hren] at h0 hfirst ⊢
  by_cases hr : r = -2
  · rw [if_neg (not_not.mpr hr)] at h0 ⊢
    rw [if_neg (not_not.mpr hr)]
    have hrefused : Authorized c _ _ := vfsRename_outcome.authorized_of_ne
      (show (vfsRename drv c s1 old new).1 ≠ 0 by simp [hren, hr])
    have ht2 := Changes.tree hfirst ht1
    have hcheck := replaceCheck_fills drv c s2 old new
    have ht3 := tree ht2 hcheck
    unfold replaceTarget at h0
    rcases hch : replaceCheck drv c s2 old new with ⟨_ | r3, s3⟩ <;>
      simp only [hch] at h0 ht3 ⊢
    · have hunlink : Changes drv c (fun _ _ => true) s3 _ := vfsUnlink_changes (guarded_true new)
      have hgone := vfsUnlink_authorized drv c ht3 new
      rcases hun : vfsUnlink drv c s3 new with ⟨r4, s4⟩
      simp only [hun] at h0 hunlink hgone ⊢
      split at h0
      · exact absurd h0 (by simp)
      · have hlast := vfsRename_authorized_iff (Changes.tree hunlink ht3) h0
        simpa [renamePhase, hrefused, hgone] using hlast
    · exact absurd h0 (replaceCheck_error hch)
  · rw [if_pos hr] at h0 ⊢
    rw [if_pos hr]
    have h0' : (vfsRename drv c s1 old new).1 = 0 := by rw [hren]; exact h0
    simpa [renamePhase] using vfsRename_authorized_iff ht1 h0'

-- A call that goes through changes only directories its caller may write, unless it
-- renames within one directory: that branch of `vfs_rename_unlocked` asks for nothing.
theorem authorized_iff_localRename (ht : Tree s) {call : Mutation}
    (h0 : (call.run drv c s).1 = 0) : AuthorizedCall drv c s call ↔
      (call.localRename drv c s).all (permitted c.cred · permWrite) = true := by
  cases call with
  | make kind path =>
    refine iff_of_true ?_ rfl
    simpa [AuthorizedCall, Mutation.phases] using vfsMutator_authorized ht kind path
  | link old new =>
    refine iff_of_true ?_ rfl
    simpa [AuthorizedCall, Mutation.phases] using vfsLink_authorized ht old new
  | symlink target linkpath =>
    refine iff_of_true ?_ rfl
    simpa [AuthorizedCall, Mutation.phases] using vfsSymlink_authorized ht target linkpath
  | unlink path =>
    refine iff_of_true ?_ rfl
    simpa [AuthorizedCall, Mutation.phases] using vfsUnlink_authorized drv c ht path
  | rename old new =>
    simpa [AuthorizedCall, Mutation.phases, renamePhase, Mutation.localRename]
      using vfsRename_authorized_iff ht h0
  | replace old new => exact vfsRenameReplace_authorized_iff ht h0

def userTask : Caller := { cred := { owner := .user, uid := 1000, gid := 1000 } }

def etcTree : State Unit := (vfsCreate noVolumes kernelTask (bootTree ()) "/etc/a".toList).2

theorem etcRename_not_authorized :
    userTask.cred.owner = .user ∧ credIsAdmin userTask.cred = false ∧
      ((Mutation.rename "/etc/a".toList "/etc/b".toList).run noVolumes userTask etcTree).1 = 0 ∧
      ¬ AuthorizedCall noVolumes userTask etcTree (.rename "/etc/a".toList "/etc/b".toList) := by
  refine ⟨rfl, by decide, by decide +kernel, fun h => ?_⟩
  have hetc := h _ (List.mem_singleton.mpr rfl) 1 { ramfsNode .dir with driver := .ramfs }
    (by decide +kernel) (by decide +kernel) ⟨"a".toList, by decide +kernel⟩
  exact absurd hetc (by decide)

def homeTree : State Unit :=
  (bootTree ()).modInode 3 fun ino => { ino with uid := 1000, gid := 1000, mode := 0o700 }

def homeFileTree : State Unit := (vfsCreate noVolumes userTask homeTree "/tmp/a".toList).2

theorem homeRename_authorized :
    ((Mutation.rename "/tmp/a".toList "/tmp/b".toList).run noVolumes userTask homeFileTree).1 = 0 ∧
      AuthorizedCall noVolumes userTask homeFileTree
        (.rename "/tmp/a".toList "/tmp/b".toList) := by
  have ht : Tree homeTree := (tree_bootTree ()).of_dentries rfl
  have hmake : Changes noVolumes userTask (fun _ _ => true) homeTree homeFileTree :=
    vfsMutator_changes .file _
  have h0 : ((Mutation.rename "/tmp/a".toList "/tmp/b".toList).run noVolumes userTask
      homeFileTree).1 = 0 := by decide +kernel
  exact ⟨h0, (authorized_iff_localRename (Changes.tree hmake ht) h0).mpr (by decide +kernel)⟩

theorem Outcome.kept {P : State ψ → Prop} {r : Int × State ψ} (h : Outcome t P r)
    (hf : Fills drv s t) (h0 : r.1 ≠ 0) : ∃ u v, Fills drv s u ∧ r.2 = u.setVol v := by
  obtain ⟨-, v, hv⟩ := h.resolve_right fun h => h0 h.1
  exact ⟨t, v, hf, hv⟩

-- Whoever calls what, an entry of a directory has it as its parent, and a name of its own.
theorem tree_always (v : ψ) (calls : List (Caller × Call)) :
    Always (fun s a => a.2.run drv a.1 s) Tree (bootTree v) calls :=
  always_of_step (fun _ a h => Changes.tree (Call.changes a.2.guarded_true) h) (fun _ h => h)
    (tree_bootTree v)

end DosKernel.Vfs
