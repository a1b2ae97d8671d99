import DosKernel.Vfs.Changes

namespace DosKernel.Vfs

open DosKernel.Lib Relation Fills

variable {ψ : Type}

inductive Growth (drv : Drivers ψ) (c : Caller) : State ψ → State ψ → Prop
  | fill {s t} : FillStep drv s t → Growth drv c s t
  | vol {s} (v : ψ) : Growth drv c s (s.setVol v)
  | make {s t p dir name} : s.inodeOf p = some dir → dir.kind = .dir → name.length ≤ nameMax →
      Makes drv c s p dir name t → Growth drv c s t
  | truncate {s} (i : InodeId) : Growth drv c s (s.truncate i)

abbrev Grows (drv : Drivers ψ) (c : Caller) : State ψ → State ψ → Prop := ReflTransGen (Growth drv c)

variable {drv : Drivers ψ} {c : Caller} {s t : State ψ}
  {G : State ψ → DentryId → Bool}

theorem Growth.change (h : Growth drv c s t) : Change drv c G s t := by
  cases h with
  | fill h => exact .fill h
  | vol v => exact .vol v
  | make hdir hkind hlen h => exact .make hdir hkind hlen h
  | truncate i => exact .truncate i

theorem Grows.changes (h : Grows drv c s t) : Changes drv c G s t :=
  ReflTransGen.mono (fun _ _ => Growth.change) _ _ h

theorem Fills.grows (h : Fills drv s t) : Grows drv c s t :=
  ReflTransGen.mono (fun _ _ => Growth.fill) _ _ h

theorem vfsMutator_grows (kind : MakeKind) (path : Path) :
    Grows drv c s (vfsMutator drv c kind s path).2 := by
  refine (grows (locate_seeks drv c s path).fills).trans (.single ?_)
  have hout : Outcome _ _ (vfsMutator drv c kind s path) := vfsMutator_outcome kind path
  obtain ⟨-, v, heq⟩ | ⟨-, p, dir, last, ⟨hdir, hkind, hlen⟩, h⟩ := hout
  · rw [heq]
    exact .vol v
  · exact .make hdir hkind hlen h

theorem vfsMutator_changes (kind : MakeKind) (path : Path) :
    Changes drv c G s (vfsMutator drv c kind s path).2 :=
  Grows.changes (vfsMutator_grows kind path)

theorem vfsLink_changes (old new : Path) :
    Changes drv c G s (vfsLink drv c s old new).2 := by
  refine (changes (locateLink_seeks drv c s old new).fills).trans
    ((vfsLink_outcome old new).changes fun {t} h => ?_)
  obtain ⟨src, p, dir, last, ⟨hdir, hkind, hlen⟩, h⟩ := h
  exact .link hdir hkind hlen h

theorem vfsRename_changes (old new : Path) :
    Changes drv c G s (vfsRename drv c s old new).2 := by
  refine (changes (locateBoth_seeks drv c s old new).fills).trans
    (vfsRename_outcome.changes fun {t} h => ?_)
  obtain ⟨op, olast, np, nlast, -, ⟨hne, h⟩ | ⟨rfl, h⟩⟩ := h
  · exact .move hne h
  · exact .rename h

def guarded (drv : Drivers ψ) (c : Caller) (G : State ψ → DentryId → Bool) (s : State ψ)
    (path : Path) : Bool :=
  match unlinkTarget drv c s path with
  | (.ok (_, _, d, _), s1) => G s1 d
  | _ => true

theorem vfsUnlink_changes {path : Path} (hG : guarded drv c G s path = true) :
    Changes drv c G s (vfsUnlink drv c s path).2 := by
  refine (changes (unlinkTarget_seeks drv c s path).fills).trans
    (vfsUnlink_outcome.changes fun {t} h => ?_)
  obtain ⟨p, dir, d, last, i, ino, htgt, hdir, hkind, hrem, h⟩ := h
  have hok : unlinkTarget drv c s path = (.ok (p, dir, d, last), (unlinkTarget drv c s path).2) :=
    Prod.ext htgt rfl
  unfold guarded at hG
  rw [hok] at hG
  exact .remove hdir hkind hrem h hG

theorem vfsRealpath_fills (path : Path) : Fills drv s (vfsRealpath drv c s path).2 := by
  unfold vfsRealpath
  split
  · exact .refl
  · unfold expandLinks
    split
    · exact .refl
    · exact expandHops_fills ..

variable (drv c s) in
theorem openedBy_fills (path : Path) (crossed : Bool) :
    Fills drv s (openedBy drv c s path crossed).2 := by
  unfold openedBy
  split
  · exact .refl
  · split
    · exact vfsRealpath_fills path
    · exact .refl

theorem NodeAt.fills {d : DentryId} {i : InodeId} {ino : Inode} (h : NodeAt s d i ino)
    (ht : Fills drv s t) : NodeAt t d i ino := by
  obtain ⟨dn, hdn, hi⟩ := h.get
  obtain ⟨l, hl⟩ := (Fills.extends ht).dentry h.lt.1
  refine ⟨?_, ?_⟩
  · simp [State.inodeIdOf, hl, hdn, Dentry.withNew, hi]
  · rw [(Fills.extends ht).inode h.lt.2, h.inode]

theorem openDentry_grows (path : Path) (flags : OpenFlags) :
    Grows drv c s (openDentry drv c s path flags).2 := by
  have hwalk := resolvePathEx_fills drv c s (!flags.nofollow) path
  unfold openDentry
  rcases hw : resolvePathEx drv c (!flags.nofollow) s path with ⟨w, s1⟩
  rw [hw] at hwalk
  dsimp only
  split
  · exact hwalk.grows
  · exact hwalk.grows
  · split
    · exact hwalk.grows
    · have hmake : Grows drv c s _ := (grows hwalk).trans (vfsMutator_grows .file path)
      rcases hr : vfsCreate drv c s1 path with ⟨r, s2⟩
      rw [show vfsMutator drv c .file s1 path = (r, s2) from hr] at hmake
      split
      · exact hmake
      · exact hmake.trans (grows (resolvePath_fills ..))

def Opens (drv : Drivers ψ) (c : Caller) (s : State ψ) (flags : OpenFlags)
    (r : Option FileId × State ψ) : Prop :=
  ∃ s1, Grows drv c s s1 ∧ (r = (none, s1) ∨
    ∃ d i ino vpath, NodeAt s1 d i ino ∧ r = (some s1.files.next, s1.addFile d i flags vpath))

theorem finishOpen_opens (path : Path) (flags : OpenFlags) (d : DentryId)
    (crossed : Bool) : Opens drv c s flags (finishOpen drv c s path flags d crossed) := by
  unfold finishOpen
  split
  next i ino hi hino =>
    have hnode := nodeAt_of_eq hi hino
    dsimp only
    split
    · exact ⟨s, .refl, .inl rfl⟩
    have htrunc : Grows drv c s (if flags.trunc then s.truncate i else s) := by
      split
      · exact .single (.truncate i)
      · exact .refl
    have hnode' : ∃ ino', NodeAt (if flags.trunc then s.truncate i else s) d i ino' := by
      split
      · have hsome : ((s.truncate i).inodes.get i).isSome := by
          simp [State.truncate, State.modInode, hnode.inode]
        obtain ⟨ino', hino'⟩ := Option.isSome_iff_exists.mp hsome
        exact ⟨ino', hnode.id, hino'⟩
      · exact ⟨ino, hnode⟩
    generalize (if flags.trunc then s.truncate i else s) = s1 at htrunc hnode'
    obtain ⟨ino', hnode'⟩ := hnode'
    have hby := openedBy_fills drv c s1 path crossed
    have hlive := hnode'.fills hby
    rcases hv : openedBy drv c s1 path crossed with ⟨vpath, s2⟩
    rw [hv] at hby hlive
    exact ⟨s2, htrunc.trans hby.grows, .inr ⟨d, i, ino', vpath, hlive, rfl⟩⟩
  · exact ⟨s, .refl, .inl rfl⟩

variable (drv) in
theorem vfsOpen_opens (path : Path) (flags : OpenFlags) :
    Opens drv c s flags (vfsOpen drv c s path flags) := by
  have hro : Fills drv s (if flags.wronly || flags.create || flags.trunc then roPath drv c s path
      else (false, s)).2 := by
    split
    · exact roPath_fills ..
    · exact .refl
  unfold vfsOpen
  generalize (if flags.wronly || flags.create || flags.trunc then roPath drv c s path
    else (false, s)) = r at hro
  rcases r with ⟨_ | _, s1⟩
  · have hopen : Grows drv c s _ := (grows hro).trans (openDentry_grows path flags)
    dsimp only at hopen ⊢
    rcases hd : openDentry drv c s1 path flags with ⟨_ | ⟨d, crossed⟩, s2⟩ <;> rw [hd] at hopen
    · exact ⟨s2, hopen, .inl rfl⟩
    · have hfinish : Opens drv c s2 flags _ := finishOpen_opens path flags d crossed
      obtain ⟨s3, hgrow, h⟩ := hfinish
      exact ⟨s3, hopen.trans hgrow, h⟩
  · exact ⟨s1, hro.grows, .inl rfl⟩

variable (drv) in
theorem vfsOpen_changes (path : Path) (flags : OpenFlags) :
    Changes drv c G s (vfsOpen drv c s path flags).2 := by
  obtain ⟨s1, hgrow, h | ⟨d, i, ino, vpath, hnode, h⟩⟩ := vfsOpen_opens drv path flags
  · rw [h]
    exact Grows.changes hgrow
  · rw [h]
    exact (Grows.changes hgrow).tail (.opened flags vpath hnode)

inductive Call where
  | make (kind : MakeKind) (path : Path)
  | link (old new : Path)
  | unlink (path : Path)
  | rename (old new : Path)
  | openFile (path : Path) (flags : OpenFlags)
  | close (f : FileId)

def Call.run (drv : Drivers ψ) (c : Caller) (s : State ψ) : Call → State ψ
  | .make kind path => (vfsMutator drv c kind s path).2
  | .link old new => (vfsLink drv c s old new).2
  | .unlink path => (vfsUnlink drv c s path).2
  | .rename old new => (vfsRename drv c s old new).2
  | .openFile path flags => (vfsOpen drv c s path flags).2
  | .close f => (vfsClose drv s f).2

def Call.guarded (drv : Drivers ψ) (c : Caller) (G : State ψ → DentryId → Bool) (s : State ψ) :
    Call → Bool
  | .unlink path => Vfs.guarded drv c G s path
  | _ => true

theorem Call.changes {call : Call} (h : call.guarded drv c G s = true) :
    Changes drv c G s (call.run drv c s) := by
  cases call with
  | make kind path => exact vfsMutator_changes kind path
  | link old new => exact vfsLink_changes old new
  | unlink path => exact vfsUnlink_changes h
  | rename old new => exact vfsRename_changes old new
  | openFile path flags => exact vfsOpen_changes drv path flags
  | close f => exact .single (.closed f)

theorem Call.guarded_true (call : Call) : call.guarded drv c (fun _ _ => true) s = true := by
  cases call with
  | unlink path =>
    simp only [Call.guarded, Vfs.guarded]
    split <;> rfl
  | _ => rfl

theorem bindDentries_cases (source target : DentryId) :
    (bindDentries c s source target).2 = s ∨
      (bindDentries c s source target).2 = s.installBind c.mntns target source ∧
        (s.dentries.get source).isSome ∧ (s.dentries.get target).isSome := by
  unfold bindDentries
  split
  next sino tino hsino htino =>
    split
    · exact .inl rfl
    split
    · exact .inl rfl
    split
    · exact .inl rfl
    split
    · exact .inl rfl
    · obtain ⟨_, hs⟩ := nodeAt_of_inodeOf hsino
      obtain ⟨_, ht⟩ := nodeAt_of_inodeOf htino
      obtain ⟨sn, hsn, -⟩ := hs.get
      obtain ⟨tn, htn, -⟩ := ht.get
      exact .inr ⟨rfl, by simp [hsn], by simp [htn]⟩
  · exact .inl rfl

section Recursive

def loopGuarded (drv : Drivers ψ) (recurse : State ψ → Path → Int × State ψ)
    (ok : State ψ → Path → Bool) (path : Path) (f : FileId) : ℕ → State ψ → Bool
  | 0, _ => true
  | fuel + 1, s =>
    match firstEntry drv s f with
    | none => true
    | some name =>
      if pathCap < path.length + 1 + name.length + 1 then true
      else
        ok s (childPath path name) &&
          match recurse s (childPath path name) with
          | (r, s) => if r ≠ 0 then true else loopGuarded drv recurse ok path f fuel s

def recGuarded (drv : Drivers ψ) (c : Caller) (G : State ψ → DentryId → Bool) (fuel : ℕ) :
    ℕ → State ψ → Path → Bool
  | levels, s, path =>
    match vfsOpen drv c s path { rdonly := true } with
    | (none, _) => true
    | (some f, s) =>
      let isDir := ((s.files.get f).bind fun file => s.inodes.get file.inode).any
        fun ino => decide (ino.kind = .dir)
      if isDir then
        match levels with
        | 0 => true
        | levels + 1 =>
          loopGuarded drv (unlinkRec drv c fuel levels) (recGuarded drv c G fuel levels) path f
            fuel s &&
          match unlinkLoop drv (unlinkRec drv c fuel levels) path f fuel s with
          | (some _, _) => true
          | (none, s) => guarded drv c G (vfsClose drv s f).2 path
      else guarded drv c G (vfsClose drv s f).2 path

variable {recurse : State ψ → Path → Int × State ψ} {ok : State ψ → Path → Bool} {path : Path}
  {f fuel levels : ℕ}

theorem unlinkLoop_changes
    (hrec : ∀ {s path}, ok s path = true → Changes drv c G s (recurse s path).2)
    (h : loopGuarded drv recurse ok path f fuel s = true) :
    Changes drv c G s (unlinkLoop drv recurse path f fuel s).2 := by
  induction fuel generalizing s with
  | zero => exact .refl
  | succ fuel ih =>
    unfold loopGuarded at h
    unfold unlinkLoop
    cases hname : firstEntry drv s f with
    | none => exact .refl
    | some name =>
      simp only [hname] at h
      dsimp only
      split at h
      · rw [if_pos ‹_›]
      · rw [if_neg ‹_›]
        rw [Bool.and_eq_true] at h
        have hfirst := hrec h.1
        rcases hr : recurse s (childPath path name) with ⟨r, s1⟩
        simp only [hr] at hfirst h
        split
        · exact hfirst
        next hzero =>
          rw [if_neg hzero] at h
          exact hfirst.trans (ih h.2)

theorem closeUnlink_changes (h : guarded drv c G (vfsClose drv s f).2 path = true) :
    Changes drv c G s (vfsUnlink drv c (vfsClose drv s f).2 path).2 := by
  have hclose : Changes drv c G s (vfsClose drv s f).2 := .single (.closed f)
  exact hclose.trans (vfsUnlink_changes h)

theorem unlinkRec_changes (h : recGuarded drv c G fuel levels s path = true) :
    Changes drv c G s (unlinkRec drv c fuel levels s path).2 := by
  induction levels generalizing s path with
  | zero =>
    have hopen := vfsOpen_changes drv (c := c) (s := s) (G := G) path { rdonly := true }
    unfold recGuarded at h
    unfold unlinkRec
    rcases ho : vfsOpen drv c s path { rdonly := true } with ⟨_ | f, s1⟩ <;>
      simp only [ho] at h hopen ⊢
    · exact hopen
    · split at h
      · rw [if_pos ‹_›]
        exact hopen.tail (.closed f)
      · rw [if_neg ‹_›]
        exact hopen.trans (closeUnlink_changes h)
  | succ levels ih =>
    have hopen := vfsOpen_changes drv (c := c) (s := s) (G := G) path { rdonly := true }
    unfold recGuarded at h
    unfold unlinkRec
    rcases ho : vfsOpen drv c s path { rdonly := true } with ⟨_ | f, s1⟩ <;>
      simp only [ho] at h hopen ⊢
    · exact hopen
    · split at h
      · rw [if_pos ‹_›]
        rw [Bool.and_eq_true] at h
        have hloop := hopen.trans (unlinkLoop_changes ih h.1)
        have hlast := h.2
        rcases hl : unlinkLoop drv (unlinkRec drv c fuel levels) path f fuel s1 with
          ⟨_ | r, s2⟩ <;> simp only [hl] at hlast hloop ⊢
        · exact hloop.trans (closeUnlink_changes hlast)
        · exact hloop.tail (.closed f)
      · rw [if_neg ‹_›]
        exact hopen.trans (closeUnlink_changes h)

theorem loopGuarded_true (h : ∀ s path, ok s path = true) (s : State ψ) :
    loopGuarded drv recurse ok path f fuel s = true := by
  induction fuel generalizing s with
  | zero => rfl
  | succ fuel ih =>
    unfold loopGuarded
    split
    · rfl
    split
    · rfl
    rw [h, Bool.true_and]
    dsimp only
    split
    · rfl
    · exact ih _

theorem recGuarded_true (s : State ψ) (path : Path) :
    recGuarded drv c (fun _ _ => true) fuel levels s path = true := by
  have hone : ∀ t path, guarded drv c (fun _ _ => true) t path = true := by
    intro t path
    unfold guarded
    split <;> rfl
  induction levels generalizing s path with
  | zero =>
    unfold recGuarded
    split
    · rfl
    dsimp only
    split
    · rfl
    · exact hone _ _
  | succ levels ih =>
    unfold recGuarded
    split
    · rfl
    dsimp only
    split
    · rw [loopGuarded_true ih, Bool.true_and]
      split
      · rfl
      · exact hone _ _
    · exact hone _ _

def recursiveGuarded (drv : Drivers ψ) (c : Caller) (G : State ψ → DentryId → Bool) (fuel : ℕ)
    (s : State ψ) (path : Path) : Bool :=
  match roPath drv c s path with
  | (true, _) => true
  | (false, s) =>
    decide (path = [] ∨ pathCap ≤ path.length) || recGuarded drv c G fuel 8 s path

theorem vfsUnlinkRecursive_changes (h : recursiveGuarded drv c G fuel s path = true) :
    Changes drv c G s (vfsUnlinkRecursive drv c fuel s path).2 := by
  have hro := roPath_fills drv c s path
  unfold recursiveGuarded at h
  unfold vfsUnlinkRecursive
  rcases hr : roPath drv c s path with ⟨_ | _, s1⟩ <;> simp only [hr] at hro h ⊢
  · split
    · exact hro.changes
    next hpath =>
      rw [decide_eq_false hpath, Bool.false_or] at h
      exact (changes hro).trans (unlinkRec_changes h)
  · exact hro.changes

theorem recursiveGuarded_true (s : State ψ) (path : Path) :
    recursiveGuarded drv c (fun _ _ => true) fuel s path = true := by
  unfold recursiveGuarded
  split
  · rfl
  · rw [recGuarded_true, Bool.or_true]

end Recursive

end DosKernel.Vfs
