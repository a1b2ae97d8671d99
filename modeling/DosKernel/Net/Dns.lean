import DosKernel.Net.Frame

namespace DosKernel.Net.Dns

open List

-- The stub resolver of kernel/core/net.c. A reply is the first `len` bytes of `mem`, at most a UDP
-- datagram, so no offset wraps.

def dot : Byte := 46

def querySize : ℕ := 512

-- `out` is what has been written; a label's length goes in at `labelStart` when it ends.
def encodeLoop : List Byte → List Byte → ℕ → ℕ → List Byte
  | [], out, labelStart, lp => out.set labelStart (UInt8.ofNat lp) ++ [0]
  | c :: host, out, labelStart, lp =>
    if c = dot then encodeLoop host (out.set labelStart (UInt8.ofNat lp) ++ [0]) out.length 0
    else encodeLoop host (out ++ [c]) labelStart (lp + 1)

def dnsEncodeName (host : List Byte) : List Byte := encodeLoop host [0] 0 0

def dnsHeader : List Byte := [0x0D, 0x05, 0x01, 0, 0, 0x01, 0, 0, 0, 0, 0, 0]

-- What `net_dns_query` has put at the start of `q`, and what it sent if the network took it.
structure Query where
  written : List Byte
  sent : Option (List Byte)

def netDnsQuery (host : List Byte) (taken : Bool) : Query :=
  let q := dnsHeader ++ dnsEncodeName host ++ [0, 1, 0, 1]
  { written := q, sent := if taken then some q else none }

-- The positions read, and the position behind the name.
def dnsSkipName (mem : Mem) (total p : ℕ) : List ℕ × ℕ :=
  if p < total then
    if mem p &&& 0xC0 = 0xC0 then ([p], p + 2)
    else if mem p = 0 then ([p], p + 1)
    else
      let r := dnsSkipName mem total (p + 1 + (mem p).toNat)
      (p :: r.1, r.2)
  else ([], p)
termination_by total - p

-- The answers from `off` on: what is read, and the address of the first A record.
def answers (mem : Mem) (len : ℕ) : ℕ → ℕ → List ℕ × Option ℕ
  | 0, _ => ([], none)
  | n + 1, off =>
    if off + 10 ≤ len then
      let name := dnsSkipName mem len off
      let off := name.2
      if len < off + 10 then (name.1, none)
      else if ntohs mem off = 1 ∧ ntohs mem (off + 8) = 4 ∧ off + 14 ≤ len then
        (name.1 ++ [off, off + 1, off + 8, off + 9, off + 10, off + 11, off + 12, off + 13],
          some (ntohl mem (off + 10)))
      else
        let r := answers mem len n (off + 10 + ntohs mem (off + 8))
        (name.1 ++ [off, off + 1, off + 8, off + 9] ++ r.1, r.2)
    else ([], none)

-- `none`: not taken for the answer. Otherwise the query is done, with the address if any.
def dnsRecv (id : ℕ) (mem : Mem) (len : ℕ) : List ℕ × Option (Option ℕ) :=
  if len < 12 then ([], none)
  else if ntohs mem 0 ≠ id then ([0, 1], none)
  else
    let name := dnsSkipName mem len 12
    let r := answers mem len (ntohs mem 6) (name.2 + 4)
    ([0, 1, 6, 7] ++ name.1 ++ r.1, some r.2)

def encode (labels : List (List Byte)) : List Byte :=
  labels.flatMap (fun l => UInt8.ofNat l.length :: l) ++ [0]

def ValidLabels (labels : List (List Byte)) : Prop :=
  (∀ l ∈ labels, 1 ≤ l.length ∧ l.length ≤ 63 ∧ dot ∉ l) ∧ (encode labels).length ≤ 255

-- The query stays in its buffer, and what is sent asks for the name.
def Query.Sound (q : Query) (host : List Byte) : Prop :=
  q.written.length ≤ querySize ∧ ∀ sent, q.sent = some sent → ∃ labels, labels ≠ [] ∧
    ValidLabels labels ∧ [dot].intercalate labels = host ∧
      sent = dnsHeader ++ encode labels ++ [0, 1, 0, 1]

-- The name at `p` ends before `q`: labels, then a zero byte or a pointer to the rest.
inductive NameEnds (mem : Mem) : ℕ → ℕ → Prop
  | pointer {p : ℕ} : mem p &&& 0xC0 = 0xC0 → NameEnds mem p (p + 2)
  | root {p : ℕ} : mem p = 0 → NameEnds mem p (p + 1)
  | label {p q : ℕ} : mem p &&& 0xC0 ≠ 0xC0 → mem p ≠ 0 →
      NameEnds mem (p + 1 + (mem p).toNat) q → NameEnds mem p q

-- Where the fixed part of the `k`-th answer of a reply begins.
inductive AnswerAt (mem : Mem) : ℕ → ℕ → Prop
  | first {q off : ℕ} : NameEnds mem 12 q → NameEnds mem (q + 4) off → AnswerAt mem 0 off
  | next {k off off' : ℕ} : AnswerAt mem k off →
      NameEnds mem (off + 10 + ntohs mem (off + 8)) off' → AnswerAt mem (k + 1) off'

def ARecord (mem : Mem) (len n ip : ℕ) : Prop :=
  ∃ k off, k < n ∧ AnswerAt mem k off ∧ off + 14 ≤ len ∧ ntohs mem off = 1 ∧
    ntohs mem (off + 8) = 4 ∧ ip = ntohl mem (off + 10)

-- Nothing behind the reply is read, and an address is that of an A record among its answers.
def ReadsWithin (id : ℕ) (mem : Mem) (len : ℕ) : Prop :=
  (∀ p ∈ (dnsRecv id mem len).1, p < len) ∧
    ∀ ip, (dnsRecv id mem len).2 = some (some ip) → ARecord mem len (ntohs mem 6) ip

-- Labels of 1 to 63 bytes, and no more than 253 bytes with the dots.
def Named (host : List Byte) : Prop :=
  (∀ l ∈ host.splitOn dot, 1 ≤ l.length ∧ l.length ≤ 63) ∧ host.length ≤ 253

theorem modifyHead_nil (labels : List (List Byte)) : labels.modifyHead ([] ++ ·) = labels := by
  cases labels <;> rfl

theorem encodeLoop_eq (host done cur : List Byte) :
    encodeLoop host (done ++ 0 :: cur) done.length cur.length =
      done ++ encode ((host.splitOn dot).modifyHead (cur ++ ·)) := by
  induction host generalizing done cur with
  | nil => simp [encodeLoop, encode]
  | cons c host ih =>
    rw [encodeLoop, splitOn_cons_eq_if_modifyHead]
    split
    next hc =>
      have hrest := ih (done ++ UInt8.ofNat cur.length :: cur) []
      rw [modifyHead_nil] at hrest
      simp_all [encode]
    next hc =>
      have hrest := ih done (cur ++ [c])
      simp_all [Function.comp_def]

theorem length_encodeLoop (host out : List Byte) (labelStart lp : ℕ) :
    (encodeLoop host out labelStart lp).length = out.length + host.length + 1 := by
  induction host generalizing out labelStart lp with
  | nil => simp [encodeLoop]
  | cons c host ih =>
    rw [encodeLoop]
    split <;> simp [ih] <;> omega

theorem dnsEncodeName_eq (host : List Byte) : dnsEncodeName host = encode (host.splitOn dot) := by
  have hloop := encodeLoop_eq host [] []
  rwa [nil_append, nil_append, modifyHead_nil] at hloop

theorem encode_length (host : List Byte) : (encode (host.splitOn dot)).length = host.length + 2 := by
  rw [← dnsEncodeName_eq, dnsEncodeName, length_encodeLoop, length_singleton]
  omega

theorem dot_not_mem {host l : List Byte} (h : l ∈ host.splitOn dot) : dot ∉ l := by
  induction host generalizing l with
  | nil => simp_all
  | cons c host ih =>
    rw [splitOn_cons_eq_if_modifyHead] at h
    split at h
    next =>
      obtain rfl | h := mem_cons.mp h
      · exact not_mem_nil
      · exact ih h
    next hc =>
      cases hs : host.splitOn dot with
      | nil => exact absurd hs (splitOn_ne_nil dot host)
      | cons first rest =>
        rw [hs] at h ih
        obtain rfl | h := mem_cons.mp h
        · rintro hd
          obtain rfl | hd := mem_cons.mp hd
          · exact hc (beq_self_eq_true _)
          · exact ih mem_cons_self hd
        · exact ih (mem_cons_of_mem _ h)

theorem length_written (host : List Byte) (taken : Bool) :
    (netDnsQuery host taken).written.length = host.length + 18 := by
  simp [netDnsQuery, dnsEncodeName_eq, encode_length, dnsHeader]

theorem query_sound_iff (host : List Byte) :
    (∀ taken, (netDnsQuery host taken).Sound host) ↔ Named host := by
  constructor
  · intro h
    obtain ⟨labels, hne, ⟨hlabels, htotal⟩, hjoin, -⟩ := (h true).2 _ rfl
    have hsplit : host.splitOn dot = labels := by
      rw [← hjoin]
      exact splitOn_intercalate dot (fun l hl => (hlabels l hl).2.2) hne
    rw [← hsplit, encode_length] at htotal
    refine ⟨fun l hl => ?_, by omega⟩
    rw [hsplit] at hl
    exact ⟨(hlabels l hl).1, (hlabels l hl).2.1⟩
  · rintro ⟨hlabels, hhost⟩ taken
    refine ⟨?_, fun sent hsent => ⟨host.splitOn dot, splitOn_ne_nil dot host, ⟨fun l hl => ?_, ?_⟩,
      intercalate_splitOn dot, ?_⟩⟩
    · rw [length_written, querySize]
      omega
    · exact ⟨(hlabels l hl).1, (hlabels l hl).2, dot_not_mem hl⟩
    · rw [encode_length]
      omega
    · rw [← dnsEncodeName_eq]
      cases taken with
      | true => exact (Option.some.inj hsent).symm
      | false => cases hsent

theorem skip_reads (mem : Mem) (total p : ℕ) : ∀ q ∈ (dnsSkipName mem total p).1, q < total := by
  fun_induction dnsSkipName mem total p with
  | case1 p hp _ => simpa using hp
  | case2 p hp _ _ => simpa using hp
  | case3 p hp _ _ r ih => simpa [r] using ⟨hp, ih⟩
  | case4 p hp => simp

theorem answers_reads (mem : Mem) (len n off : ℕ) : ∀ q ∈ (answers mem len n off).1, q < len := by
  induction n generalizing off with
  | zero => simp [answers]
  | succ n ih =>
    have hskip := skip_reads mem len off
    unfold answers
    dsimp only
    split_ifs with hoff hname hrec
    · exact hskip
    · simp only [mem_append, mem_cons, not_mem_nil, or_false]
      intro q hq
      obtain hq | hq := hq
      · exact hskip q hq
      · omega
    · simp only [mem_append, mem_cons, not_mem_nil, or_false]
      rintro q ((hq | hq) | hq)
      · exact hskip q hq
      · omega
      · exact ih _ q hq
    · simp

theorem nameEnds_skip {mem : Mem} (total : ℕ) {p : ℕ} (h : (dnsSkipName mem total p).2 < total) :
    NameEnds mem p (dnsSkipName mem total p).2 := by
  fun_induction dnsSkipName with
  | case1 p hp hptr => exact .pointer hptr
  | case2 p hp hptr hz => exact .root hz
  | case3 p hp hptr hz r ih => exact .label hptr hz (ih h)
  | case4 p hp => exact absurd h hp

theorem answers_from {mem : Mem} {len n k off ip : ℕ} (h : (answers mem len n off).2 = some ip)
    (hat : off + 10 ≤ len → ∀ q, NameEnds mem off q → AnswerAt mem k q) :
    ARecord mem len (k + n) ip := by
  induction n generalizing k off with
  | zero => cases h
  | succ n ih =>
    unfold answers at h
    dsimp only at h
    split_ifs at h with hoff hname hrec
    · have hend := hat hoff _ (nameEnds_skip len (by omega))
      exact ⟨k, _, by omega, hend, hrec.2.2, hrec.1, hrec.2.1, (Option.some.inj h).symm⟩
    · have hend := hat hoff _ (nameEnds_skip len (by omega))
      rw [← Nat.add_assoc, Nat.add_right_comm]
      exact ih h fun _ q hq => .next hend hq

theorem readsWithin (id : ℕ) (mem : Mem) (len : ℕ) : ReadsWithin id mem len := by
  unfold ReadsWithin dnsRecv
  dsimp only
  split_ifs with hlen hid
  · simp
  · refine ⟨fun p hp => ?_, fun ip h => by cases h⟩
    simp only [mem_cons, not_mem_nil, or_false] at hp
    omega
  · refine ⟨fun p hp => ?_, fun ip h => ?_⟩
    · simp only [mem_append, mem_cons, not_mem_nil, or_false] at hp
      obtain (hp | hp) | hp := hp
      · omega
      · exact skip_reads mem len 12 p hp
      · exact answers_reads mem len _ _ p hp
    · have hfound := answers_from (k := 0) (Option.some.inj h) fun hoff q hq =>
        .first (nameEnds_skip len (by omega)) hq
      rwa [Nat.zero_add] at hfound

-- A query is the name's own and in its buffer, and no reply is read past its end, exactly for
-- the host names that have an encoding.
theorem dns_sound_iff (host : List Byte) :
    ((∀ taken, (netDnsQuery host taken).Sound host) ∧ ∀ id mem len, ReadsWithin id mem len) ↔
      Named host := by
  rw [query_sound_iff]
  exact and_iff_left readsWithin

-- "a..b" has an empty label.
theorem query_malformed : ¬ ∀ taken, (netDnsQuery [97, 46, 46, 98] taken).Sound [97, 46, 46, 98] :=
  fun h => absurd (((query_sound_iff _).mp h).1 [] (by decide)) (by decide)

end DosKernel.Net.Dns
