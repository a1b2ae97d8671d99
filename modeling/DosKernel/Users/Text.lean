import Mathlib.Algebra.Ring.Nat
import Mathlib.Data.Int.Notation
import Mathlib.Data.List.Basic
import Mathlib.Tactic.Common

namespace DosKernel.Users

open List

-- The string helpers of kernel/core/users.c. A text is its bytes, without the terminating NUL.
abbrev Text := List Char

def nul : Char := Char.ofNat 0

def cString (buf : Text) : Text := buf.takeWhile (· ≠ nul)

def sCopy (cap : ℕ) (s : Text) : Text := s.take (cap - 1)

def sCat (cap : ℕ) (d s : Text) : Text := d ++ s.take (cap - 1 - d.length)

def digit (d : ℕ) : Char := Char.ofNat (48 + d)

def isDigit (c : Char) : Bool := decide (48 ≤ c.toNat) && decide (c.toNat ≤ 57)

def atoiLoop : ℕ → Text → ℕ
  | v, [] => v
  | v, c :: cs => if isDigit c then atoiLoop (10 * v + (c.toNat - 48)) cs else v

def sAtoi : Text → ℤ
  | '-' :: cs => -(atoiLoop 0 cs : ℤ)
  | cs => atoiLoop 0 cs

def itoaLoop : ℕ → ℕ → Text → Text
  | 0, _, acc => acc
  | n + 1, v, acc => if v = 0 then acc else itoaLoop n (v / 10) (digit (v % 10) :: acc)

def sItoa (v : ℤ) : Text :=
  (if v < 0 then ['-'] else []) ++ (if v = 0 then ['0'] else itoaLoop 12 v.natAbs [])

def hexd : Text := "0123456789abcdef".toList

def toHex (bytes : List UInt8) : Text :=
  bytes.flatMap fun b => [hexd.getD (b.toNat / 16) '0', hexd.getD (b.toNat % 16) '0']

def fromHex : ℕ → Text → List UInt8
  | n + 1, h :: l :: s =>
    if h ∈ hexd ∧ l ∈ hexd then
      UInt8.ofNat (16 * hexd.idxOf h + hexd.idxOf l) :: fromHex n s
    else []
  | _, _ => []

def hashEqual (a b : Text) : Bool :=
  decide (a.length = b.length) && (a.zip b).all fun c => decide (c.1 = c.2)

-- Splits at a separator into at most `more + 1` fields; the last one keeps what is left.
def split (sep : Char) : Text → ℕ → List Text
  | [], _ => [[]]
  | c :: cs, 0 => [c :: cs]
  | c :: cs, more + 1 =>
    if c = sep then [] :: split sep cs more else (split sep cs (more + 1)).modifyHead (c :: ·)

-- The loop of `load_file`: the lines that are not empty, each cut to `lineMax` characters.
def lineMax : ℕ := 255

def lines : Text → Text → List Text
  | line, [] => if line = [] then [] else [line]
  | line, ch :: cs =>
    if ch = '\n' then (if line = [] then lines [] cs else line :: lines [] cs)
    else if ch = nul then (if line = [] then [] else [line])
    else if line.length < lineMax then lines (line ++ [ch]) cs
    else lines line cs

def buildLine (parts : List Text) : Text := parts.foldl (sCat 256) []

theorem digit_spec : ∀ d < 10, isDigit (digit d) = true ∧ (digit d).toNat - 48 = d := by decide

theorem atoiLoop_itoaLoop {n v : ℕ} (hv : v < 10 ^ n) (acc : Text) :
    atoiLoop 0 (itoaLoop n v acc) = atoiLoop v acc := by
  induction n generalizing v acc with
  | zero =>
    obtain rfl : v = 0 := by simpa using hv
    rfl
  | succ n ih =>
    rw [itoaLoop]
    split
    · next h => rw [h]
    · have hlt : v / 10 < 10 ^ n := by
        omega
      obtain ⟨hdigit, hval⟩ := digit_spec (v % 10) (by omega)
      rw [ih hlt, atoiLoop, if_pos hdigit, hval]
      congr 1
      omega

theorem isDigit_of_mem_itoaLoop {n v : ℕ} {acc : Text} {c : Char} (hacc : ∀ c ∈ acc, isDigit c)
    (h : c ∈ itoaLoop n v acc) : isDigit c := by
  induction n generalizing v acc with
  | zero => exact hacc c h
  | succ n ih =>
    rw [itoaLoop] at h
    split at h
    · exact hacc c h
    · refine ih (fun c hc => ?_) h
      rcases mem_cons.mp hc with rfl | hc
      · exact (digit_spec (v % 10) (by omega)).1
      · exact hacc c hc

theorem length_itoaLoop_le {n k v : ℕ} (hv : v < 10 ^ k) (acc : Text) :
    (itoaLoop n v acc).length ≤ k + acc.length := by
  induction n generalizing k v acc with
  | zero => simp [itoaLoop]
  | succ n ih =>
    rw [itoaLoop]
    split
    · omega
    · next h =>
      cases k with
      | zero => exact absurd (by simpa using hv) h
      | succ k =>
        have hlt : v / 10 < 10 ^ k := by
          omega
        have := ih hlt (digit (v % 10) :: acc)
        simp only [length_cons] at this
        omega

theorem isDigit_of_mem_itoa {v : ℤ} {c : Char} (hv : 0 ≤ v) (h : c ∈ sItoa v) : isDigit c := by
  simp only [sItoa, show ¬v < 0 by omega, if_false, nil_append] at h
  split at h
  · obtain rfl : c = '0' := by simpa using h
    decide
  · exact isDigit_of_mem_itoaLoop (by simp) h

theorem length_itoa_le {v : ℤ} (hv : 0 ≤ v ∧ v < 10000000000) : (sItoa v).length ≤ 10 := by
  simp only [sItoa, show ¬v < 0 by omega, if_false, nil_append]
  split
  · simp
  · simpa using length_itoaLoop_le (n := 12) (k := 10) (by omega) []

theorem atoiLoop_itoa {v : ℤ} (hv : 0 ≤ v ∧ v < 10000000000) :
    (atoiLoop 0 (sItoa v) : ℤ) = v := by
  simp only [sItoa, show ¬v < 0 by omega, if_false, nil_append]
  split
  · next h => rw [h]; rfl
  · rw [atoiLoop_itoaLoop (by omega), atoiLoop]
    omega

theorem ne_of_isDigit {c d : Char} (hc : isDigit c) (hd : isDigit d = false) : c ≠ d := by
  rintro rfl
  simp [hc] at hd

theorem sAtoi_of_digits {s : Text} (h : ∀ c ∈ s, isDigit c) : sAtoi s = atoiLoop 0 s := by
  cases s with
  | nil => rfl
  | cons c cs =>
    have hne : c ≠ '-' := ne_of_isDigit (h c mem_cons_self) (by decide)
    unfold sAtoi
    split
    · next heq => exact absurd (cons.inj heq).1 hne
    · rfl

theorem sAtoi_sItoa {v : ℤ} (hv : 0 ≤ v ∧ v < 10000000000) : sAtoi (sItoa v) = v := by
  rw [sAtoi_of_digits (fun c hc => isDigit_of_mem_itoa hv.1 hc), atoiLoop_itoa hv]

theorem itoa_ne_nil {v : ℤ} (hv : 0 ≤ v ∧ v < 10000000000) : sItoa v ≠ [] := by
  intro h
  have hread := atoiLoop_itoa hv
  rw [h] at hread
  have hz : v = 0 := by
    rw [← hread]
    rfl
  rw [hz] at h
  exact absurd h (by decide)

theorem notMem_itoa {v : ℤ} {d : Char} (hv : 0 ≤ v) (hd : isDigit d = false) : d ∉ sItoa v :=
  fun h => ne_of_isDigit (isDigit_of_mem_itoa hv h) hd rfl

theorem length_toHex (bytes : List UInt8) : (toHex bytes).length = 2 * bytes.length := by
  induction bytes with
  | nil => rfl
  | cons b bytes ih =>
    simp only [toHex, flatMap_cons, length_append, length_cons, length_nil] at ih ⊢
    omega

theorem mem_hexd_of_mem_toHex {bytes : List UInt8} {c : Char} (h : c ∈ toHex bytes) : c ∈ hexd := by
  have hdigit : ∀ n < 16, hexd.getD n '0' ∈ hexd := by decide
  obtain ⟨b, -, hc⟩ := mem_flatMap.mp h
  have hb := b.toNat_lt
  simp only [mem_cons, not_mem_nil, or_false] at hc
  rcases hc with rfl | rfl
  · exact hdigit _ (by omega)
  · exact hdigit _ (by omega)

theorem hashEqual_self (a : Text) : hashEqual a a = true := by
  simp only [hashEqual, decide_true, Bool.true_and, all_eq_true, decide_eq_true_eq]
  intro c hc
  induction a with
  | nil => simp at hc
  | cons x a ih =>
    rcases mem_cons.mp hc with rfl | hc
    · rfl
    · exact ih hc

theorem split_of_notMem {sep : Char} {s : Text} (h : sep ∉ s) (more : ℕ) : split sep s more = [s] := by
  induction s with
  | nil => rfl
  | cons c s ih =>
    rw [mem_cons, not_or] at h
    cases more with
    | zero => rfl
    | succ more => rw [split, if_neg (Ne.symm h.1), ih h.2, modifyHead]

theorem split_append {sep : Char} {s : Text} (h : sep ∉ s) (rest : Text) (more : ℕ) :
    split sep (s ++ sep :: rest) (more + 1) = s :: split sep rest more := by
  induction s with
  | nil => simp [split]
  | cons c s ih =>
    rw [mem_cons, not_or] at h
    rw [cons_append, split, if_neg (Ne.symm h.1), ih h.2, modifyHead]

theorem lines_append {line s : Text} (hnl : '\n' ∉ s) (hnul : nul ∉ s)
    (hlen : line.length + s.length ≤ lineMax) (rest : Text) :
    lines line (s ++ rest) = lines (line ++ s) rest := by
  induction s generalizing line with
  | nil => simp
  | cons c s ih =>
    rw [mem_cons, not_or] at hnl hnul
    simp only [length_cons] at hlen
    rw [cons_append, lines, if_neg (Ne.symm hnl.1), if_neg (Ne.symm hnul.1),
      if_pos (by omega), ih hnl.2 hnul.2 (by simpa using by omega), append_assoc,
      singleton_append]

theorem lines_line {s : Text} (hne : s ≠ []) (hnl : '\n' ∉ s) (hnul : nul ∉ s)
    (hlen : s.length ≤ lineMax) (rest : Text) :
    lines [] (s ++ '\n' :: rest) = s :: lines [] rest := by
  rw [lines_append hnl hnul (by simpa using hlen), nil_append, lines, if_pos rfl, if_neg hne]

theorem sCat_take (a b : Text) : sCat 256 (a.take 255) b = (a ++ b).take 255 := by
  rw [sCat, take_append, length_take]
  congr 2
  omega

theorem buildLine_eq (parts : List Text) : buildLine parts = parts.flatten.take 255 := by
  have h : ∀ (a : Text), parts.foldl (sCat 256) (a.take 255) = (a ++ parts.flatten).take 255 := by
    induction parts with
    | nil => simp
    | cons p parts ih =>
      intro a
      rw [foldl_cons, sCat_take, ih, flatten_cons, append_assoc]
  simpa [buildLine] using h []

end DosKernel.Users
