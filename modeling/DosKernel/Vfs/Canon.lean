import DosKernel.Vfs.Resolve

namespace DosKernel.Vfs

open List Option

-- What the text of a path means name by name; ".." at the root stays there.
def lexicalStep (l : List Name) (c : Name) : List Name :=
  if c = [] ∨ c = ['.'] then l else if c = ['.', '.'] then l.dropLast else l ++ [c]

def lexical (path : Path) : List Name := (components path).foldl lexicalStep []

def fromCwd (cwd path : Path) : Path := if isAbsolute path then path else cwd ++ '/' :: path

-- `vfs_canon` up to its trailing-slash step.
def canonText (cwd path : Path) (cap : ℕ) : Option Path :=
  (canonPlain cwd path cap).bind fun p =>
    if stripTrailing p ≠ p ∧ cap < p.length + 1 then none else some (stripTrailing p)

structure NormalForm (cwd path : Path) (cap : ℕ) (r : Path) : Prop where
  absolute : isAbsolute r = true
  names : r = ['/'] ∨ ∀ c ∈ (components r).tail, c ≠ [] ∧ isDotName c = false
  lexical : r = render (lexical (fromCwd cwd path))
  again : canonText cwd r cap = some r
  fits : r.length < cap

-- What the fast branch of `vfs_canon_plain` returns as it is.
def untouched (path : Path) : Bool := isAbsolute path && !(components path).any isDotName

-- Such a path, if it is not refused, has no empty component before its last slashes, and fits.
def Tidy (path : Path) (cap : ℕ) : Prop :=
  untouched path = true → stripTrailing path = path ∨ path.length < cap →
    (stripTrailing path = ['/'] ∨ ∀ c ∈ (components (stripTrailing path)).tail, c ≠ []) ∧
      path.length < cap

variable {ψ : Type} {s : State ψ} {c : Caller} {cwd path p : Path} {cap : ℕ}
  {cs l l' : List Name} {name : Name}

theorem canon_eq_canonText (hno : ∀ q, c.procAlias q = none ∧ s.fdMagic c q = none) :
    s.canon c path cap = canonText c.cwd path cap := by
  rw [State.canon, canonText]
  cases canonPlain c.cwd path cap with
  | none => rfl
  | some p => simp only [bind_eq_bind, bind_some, (hno _).1, (hno _).2]

section Text

theorem slash_notMem (h : name ∈ components p) : '/' ∉ name := by
  induction p generalizing name with
  | nil =>
    rw [mem_singleton.mp h]
    exact not_mem_nil
  | cons x p ih =>
    rw [components, splitOn_cons_eq_if_modifyHead] at h
    split at h
    · rcases mem_cons.mp h with rfl | h
      · exact not_mem_nil
      · exact ih h
    · next hx =>
      cases hp : splitOn '/' p with
      | nil => simp [hp] at h
      | cons d ds =>
        rw [hp, modifyHead_cons] at h
        rcases mem_cons.mp h with rfl | h
        · have hd := ih (show d ∈ components p by simp [components, hp])
          refine not_mem_cons_of_ne_of_not_mem (fun heq => hx ?_) hd
          rw [← heq, beq_self_eq_true]
        · exact ih (by simp [components, hp, h])

theorem joined_concat (ds : List Name) (d : Name) : joined (ds ++ [d]) = joined ds ++ '/' :: d := by
  simp [joined]

theorem components_joined (hp : '/' ∉ p) (hl : ∀ c ∈ l, '/' ∉ c) :
    components (p ++ joined l) = p :: l := by
  induction l generalizing p with
  | nil => simpa [joined, components] using splitOn_eq_singleton hp
  | cons d l ih =>
    have hd := ih (hl d mem_cons_self) fun c hc => hl c (mem_cons_of_mem _ hc)
    have heq : p ++ joined (d :: l) = p ++ '/' :: (d ++ joined l) := rfl
    rw [heq, components, splitOn_append_cons_self, splitOn_eq_singleton hp]
    exact congrArg (p :: ·) hd

theorem stripTrailing_concat {x : Char} (hx : x ≠ '/') (q : Path) :
    stripTrailing (q ++ [x]) = q ++ [x] := by
  cases q with
  | nil => rfl
  | cons y q => exact congrArg (y :: ·) (rdropWhile_concat_neg _ _ _ (by simpa using hx))

theorem joined_components (q : Path) : joined (components q) = '/' :: q := by
  induction q with
  | nil => rfl
  | cons x q ih =>
    rw [components, splitOn_cons_eq_if_modifyHead]
    split
    next hx =>
      obtain rfl : x = '/' := by simpa using hx
      exact congrArg ('/' :: ·) ih
    · cases hq : splitOn '/' q with
      | nil => simp [components, hq, joined] at ih
      | cons d ds =>
        rw [components, hq] at ih
        exact congrArg (fun p => '/' :: x :: p) (cons.inj ih).2

theorem stripTrailing_rule {P : Path → Prop} (h : P path)
    (hslash : ∀ x p, P (x :: p ++ ['/']) → P (x :: p)) : P (stripTrailing path) := by
  cases path with
  | nil => exact h
  | cons x p =>
    induction p using reverseRecOn with
    | nil => exact h
    | append_singleton p y ih =>
      by_cases hy : y = '/'
      · subst hy
        rw [stripTrailing, rdropWhile_concat_pos _ _ _ rfl]
        exact ih (hslash x p h)
      · rwa [← cons_append, stripTrailing_concat hy]

theorem stripTrailing_spec (h : untouched path = true) :
    untouched (stripTrailing path) = true ∧ lexical (stripTrailing path) = lexical path := by
  refine stripTrailing_rule (P := fun p => untouched p = true ∧ lexical p = lexical path) ⟨h, rfl⟩
    fun x p hp => ?_
  have hcomp : components (x :: p ++ ['/']) = components (x :: p) ++ [[]] :=
    splitOn_append_cons_self (x :: p) []
  rw [untouched, lexical, hcomp] at hp
  simpa [untouched, lexical, lexicalStep, isDotName, isAbsolute] using hp

end Text

section Scan

theorem mem_lexicalStep {d : Name} (hd : d ∈ lexicalStep l name) :
    d ∈ l ∨ d = name ∧ d ≠ [] ∧ isDotName d = false := by
  rw [lexicalStep] at hd
  split at hd
  · exact .inl hd
  · next hskip =>
    rw [not_or] at hskip
    split at hd
    · exact .inl (dropLast_subset l hd)
    · next hdots =>
      rcases mem_append.mp hd with hd | hd
      · exact .inl hd
      · obtain rfl := mem_singleton.mp hd
        exact .inr ⟨rfl, hskip.1, by simp [isDotName, hskip.2, hdots]⟩

theorem mem_foldl_lexicalStep {d : Name} (hd : d ∈ cs.foldl lexicalStep l) :
    d ∈ l ∨ d ∈ cs ∧ d ≠ [] ∧ isDotName d = false := by
  induction cs generalizing l with
  | nil => exact .inl hd
  | cons c cs ih =>
    rcases ih hd with hd | ⟨hd, hproper⟩
    · rcases mem_lexicalStep hd with hd | ⟨rfl, hproper⟩
      · exact .inl hd
      · exact .inr ⟨mem_cons_self, hproper⟩
    · exact .inr ⟨mem_cons_of_mem _ hd, hproper⟩

theorem mem_lexical {d : Name} (hd : d ∈ lexical p) :
    '/' ∉ d ∧ d ≠ [] ∧ isDotName d = false := by
  obtain ⟨hmem, hproper⟩ := (mem_foldl_lexicalStep hd).resolve_left not_mem_nil
  exact ⟨slash_notMem hmem, hproper⟩

theorem foldl_lexicalStep_proper (h : ∀ d ∈ cs, d ≠ [] ∧ isDotName d = false) :
    cs.foldl lexicalStep l = l ++ cs := by
  induction cs generalizing l with
  | nil => exact (append_nil l).symm
  | cons d cs ih =>
    obtain ⟨⟨hne, hdot⟩, hcs⟩ := forall_mem_cons.mp h
    rw [isDotName, Bool.or_eq_false_iff, decide_eq_false_iff_not, decide_eq_false_iff_not] at hdot
    rw [foldl_cons, ih hcs, lexicalStep, if_neg (not_or.mpr ⟨hne, hdot.1⟩), if_neg hdot.2]
    simp

theorem render_lexical (h : untouched p = true) (hp : ∀ d ∈ (components p).tail, d ≠ []) :
    render (lexical p) = p := by
  simp only [untouched, isAbsolute, Bool.and_eq_true, decide_eq_true_eq, Bool.not_eq_true',
    List.any_eq_false, Bool.not_eq_true] at h
  obtain ⟨q, rfl⟩ := head?_eq_some_iff.mp h.1
  have hcomp : components ('/' :: q) = [] :: components q := splitOn_append_cons_self [] q
  rw [hcomp] at hp h
  have hlex : lexical ('/' :: q) = components q := by
    rw [lexical, hcomp]
    exact foldl_lexicalStep_proper fun d hd => ⟨hp d hd, h.2 d (mem_cons_of_mem _ hd)⟩
  rw [hlex, render, joined_components]
  exact if_neg (splitOn_ne_nil _ _)

theorem pushComponent_spec (h : pushComponent cap (some l) name = some l')
    (hfit : (joined l).length < cap) : l' = lexicalStep l name ∧ (joined l').length < cap := by
  rw [pushComponent, bind_some] at h
  rw [lexicalStep]
  split at h
  · next hskip =>
    obtain rfl := some.inj h
    exact ⟨(if_pos hskip).symm, hfit⟩
  · next hskip =>
    rw [if_neg hskip]
    split at h
    · next hdots =>
      obtain rfl := some.inj h
      refine ⟨(if_pos hdots).symm, Nat.lt_of_le_of_lt ?_ hfit⟩
      rcases eq_nil_or_concat' l with rfl | ⟨ds, d, rfl⟩
      · exact Nat.le_refl _
      · rw [dropLast_concat, joined_concat, length_append]
        exact Nat.le_add_right _ _
    · next hdots =>
      rw [if_neg hdots]
      split at h
      · next hroom =>
        obtain rfl := some.inj h
        refine ⟨rfl, ?_⟩
        rw [joined_concat, length_append, length_cons]
        omega
      · cases h

theorem foldl_pushComponent_none : cs.foldl (pushComponent cap) none = none := by
  induction cs with
  | nil => rfl
  | cons d cs ih => exact ih

theorem foldl_pushComponent (h : cs.foldl (pushComponent cap) (some l) = some l')
    (hfit : (joined l).length < cap) :
    l' = cs.foldl lexicalStep l ∧ (joined l').length < cap := by
  induction cs generalizing l with
  | nil =>
    obtain rfl := some.inj h
    exact ⟨rfl, hfit⟩
  | cons c cs ih =>
    rw [foldl_cons] at h
    cases hpush : pushComponent cap (some l) c with
    | none =>
      rw [hpush, foldl_pushComponent_none] at h
      cases h
    | some l1 =>
      rw [hpush] at h
      obtain ⟨rfl, hfit1⟩ := pushComponent_spec hpush hfit
      exact ih h hfit1

end Scan

theorem canonText_of_untouched (h : untouched path = true) : canonText cwd path cap =
    if stripTrailing path ≠ path ∧ cap < path.length + 1 then none
    else some (stripTrailing path) := by
  rw [canonText, canonPlain]
  rw [untouched] at h
  rw [if_pos h, bind_some]

theorem canonText_self (h : untouched p = true) (hp : stripTrailing p = p) :
    canonText cwd p cap = some p := by
  rw [canonText_of_untouched h, if_neg fun hne => hne.1 hp, hp]

theorem normalForm_render (hl : l = lexical (fromCwd cwd path)) (hfit : (render l).length < cap) :
    stripTrailing (render l) = render l ∧ NormalForm cwd path cap (render l) := by
  have hmem : ∀ d ∈ l, '/' ∉ d ∧ d ≠ [] ∧ isDotName d = false :=
    fun d hd => mem_lexical (hl ▸ hd)
  rcases eq_nil_or_concat' l with rfl | ⟨ds, d, rfl⟩
  · exact ⟨rfl, rfl, .inl rfl, by rw [← hl], canonText_self rfl rfl, hfit⟩
  · have hrender : render (ds ++ [d]) = joined (ds ++ [d]) := if_neg (by simp)
    have hcomp : components (joined (ds ++ [d])) = [] :: (ds ++ [d]) :=
      components_joined (p := []) not_mem_nil fun c hc => (hmem c hc).1
    have habs : isAbsolute (joined (ds ++ [d])) = true := by cases ds <;> rfl
    have hdots : ∀ c ∈ components (joined (ds ++ [d])), isDotName c = false := by
      rw [hcomp]
      exact forall_mem_cons.mpr ⟨rfl, fun c hc => (hmem c hc).2.2⟩
    have hstrip : stripTrailing (joined (ds ++ [d])) = joined (ds ++ [d]) := by
      obtain ⟨hslash, hne, -⟩ := hmem d (by simp)
      obtain ⟨e, x, rfl⟩ := (eq_nil_or_concat' d).resolve_left hne
      have hx : x ≠ '/' := fun hx => hslash (by simp [hx])
      rw [joined_concat, ← cons_append, ← append_assoc]
      exact stripTrailing_concat hx _
    have hsame : untouched (joined (ds ++ [d])) = true := by simpa [untouched, habs] using hdots
    rw [hrender] at hfit ⊢
    exact ⟨hstrip, habs, .inr (by rw [hcomp]; exact fun c hc => (hmem c hc).2),
      by rw [← hl, hrender], canonText_self hsame hstrip, hfit⟩

theorem normalForm_of_scanned (hcap : 2 ≤ cap) (hslow : untouched path = false) {r : Path}
    (h : canonText cwd path cap = some r) : NormalForm cwd path cap r := by
  rw [untouched] at hslow
  rw [canonText, canonPlain, hslow, if_neg Bool.false_ne_true] at h
  obtain ⟨q, hq, hr⟩ := bind_eq_some_iff.mp h
  change (if pathCap ≤ (fromCwd cwd path).length then none else _) = some q at hq
  split at hq
  · cases hq
  · obtain ⟨l, hl, rfl⟩ := map_eq_some_iff.mp hq
    obtain ⟨hlex, hfit⟩ := foldl_pushComponent hl (Nat.lt_of_lt_of_le Nat.two_pos hcap)
    have hfits : (render l).length < cap := by
      rw [render]
      split
      · exact hcap
      · exact hfit
    obtain ⟨hstrip, hnormal⟩ := normalForm_render hlex hfits
    rw [hstrip, if_neg fun hne => hne.1 rfl] at hr
    exact some.inj hr ▸ hnormal

-- What canonicalising leaves is the normal form, whatever the working directory, exactly if the
-- fast branch does not take the path or it was in normal form already.
theorem normalForm_iff_tidy (cwd path : Path) (cap : ℕ) (hcap : 2 ≤ cap) :
    (∀ r, canonText cwd path cap = some r → NormalForm cwd path cap r) ↔ Tidy path cap := by
  cases hfast : untouched path with
  | false =>
    refine iff_of_true (fun r hr => normalForm_of_scanned hcap hfast hr) fun h => ?_
    cases hfast.symm.trans h
  | true =>
    have habs : fromCwd cwd path = path :=
      if_pos (Bool.and_eq_true_iff.mp hfast).1
    rw [canonText_of_untouched hfast]
    refine ⟨fun h _ hgo => ?_, fun h r hr => ?_⟩
    · have hnormal := h (stripTrailing path) (if_neg fun hno => by
        rcases hgo with hgo | hgo
        · exact hno.1 hgo
        · omega)
      refine ⟨hnormal.names.imp_right fun h d hd => (h d hd).1, hgo.elim (fun hgo => ?_) id⟩
      exact hgo ▸ hnormal.fits
    · split at hr
      · cases hr
      · next hgo =>
        obtain rfl := Option.some.inj hr
        obtain ⟨hproper, hfit⟩ := h hfast (by
          by_contra hno
          rw [not_or] at hno
          exact hgo ⟨hno.1, by omega⟩)
        obtain ⟨hfast', hsame⟩ := stripTrailing_spec hfast
        have hlex : stripTrailing path = render (lexical path) := by
          rw [← hsame]
          obtain hroot | hproper := hproper
          · rw [hroot]
            rfl
          · exact (render_lexical hfast' hproper).symm
        have hlen := Nat.lt_of_le_of_lt (length_stripTrailing path) hfit
        rw [hlex] at hlen ⊢
        exact (normalForm_render (by rw [habs]) hlen).2

theorem dotted_normalForm : 2 ≤ 16 ∧ ∀ r, canonText "/w".toList "../a//b/".toList 16 = some r →
    NormalForm "/w".toList "../a//b/".toList 16 r := by
  refine ⟨by decide, (normalForm_iff_tidy _ _ 16 (by decide)).mpr fun h => ?_⟩
  cases h

theorem doubled_slash_kept : canonText ['/'] "/a//b".toList pathCap = some "/a//b".toList ∧
    ¬ NormalForm ['/'] "/a//b".toList pathCap "/a//b".toList := by
  refine ⟨by decide, fun h => ?_⟩
  rcases h.names with hroot | hnames
  · exact absurd hroot (by decide)
  · exact absurd (hnames [] (by decide)).1 (by decide)

-- Whatever a path comes to, canonicalising it again changes nothing, normal form or not.
theorem canonText_idempotent (cwd path : Path) (cap : ℕ) :
    (canonText cwd path (cap + 2)).bind (canonText cwd · (cap + 2)) =
      canonText cwd path (cap + 2) := by
  cases hr : canonText cwd path (cap + 2) with
  | none => rfl
  | some r =>
    cases hfast : untouched path with
    | false => exact (normalForm_of_scanned (Nat.le_add_left ..) hfast hr).again
    | true =>
      rw [canonText_of_untouched hfast] at hr
      split at hr
      · cases hr
      · cases hr
        refine canonText_self (stripTrailing_spec hfast).1 ?_
        cases path with
        | nil => rfl
        | cons x p => exact congrArg (x :: ·) (rdropWhile_idempotent ..)

end DosKernel.Vfs
