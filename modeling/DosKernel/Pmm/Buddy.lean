import Mathlib.Data.Fintype.Basic
import DosKernel.Lib.Blocks

namespace DosKernel.Pmm

-- The physical frame allocator of kernel/mem/pmm.c. 0 is the null link. Counters are natural: no
-- sum of frame counts reaches 2^32.

def pmmFrameSize : ℕ := 4096
def buddyMaxOrder : ℕ := 13
def psUsed : ℕ := 0xFE
def psNone : ℕ := 0xFF
def pmmMaxNodes : ℕ := 8
def pmmMaxRanges : ℕ := 16
def zoneDmaFrameLimit : ℕ := 4096
def zoneDma32FrameLimit : ℕ := 1048576

inductive ZoneType where
  | dma
  | dma32
  | normal
  | highmem
deriving DecidableEq, Repr

instance : Fintype ZoneType where
  elems := {.dma, .dma32, .normal, .highmem}
  complete := by intro zi; cases zi <;> decide

-- What `pmm_init` fixes before it seeds. The direct map covers the DMA zone or all of memory, and
-- is clamped to the managed span.
structure Layout where
  nrFrames : ℕ
  pfnBase : ℕ
  directEndPfn : ℕ
  base_le : pfnBase ≤ nrFrames
  direct_le : directEndPfn ≤ nrFrames
  direct_dma : zoneDmaFrameLimit ≤ directEndPfn ∨ directEndPfn = nrFrames

-- The part of `struct zone` that changes; the rest is fixed by its place in `zones_n`.
structure Zone where
  managed : ℕ
  freeFrames : ℕ
  freeLists : ℕ → ℕ
  nrAtOrder : ℕ → ℕ

structure NodeRange where
  start : ℕ
  stop : ℕ
  node : ℕ
deriving DecidableEq, Repr

structure State where
  pageState : ℕ → ℕ
  -- the two link words a free block keeps in its first frame, by address and slot
  link : ℕ → ℕ → ℕ
  zones : ℕ → ZoneType → Zone
  nrng : List NodeRange
  nrNodes : ℕ
  numaLive : Bool
  numaCommitted : Bool
  nodeHit : ℕ → ℕ
  nodeMiss : ℕ → ℕ
  deferredFrom : ℕ

def pfnToPhys (pfn : ℕ) : ℕ := pfn * pmmFrameSize

def physToPfn (phys : ℕ) : ℕ := phys / pmmFrameSize

def zoneOfPfn (lay : Layout) (pfn : ℕ) : Option ZoneType :=
  if lay.nrFrames ≤ pfn ∨ pfn < lay.pfnBase then none
  else if lay.directEndPfn ≤ pfn then some .highmem
  else if pfn < zoneDmaFrameLimit then some .dma
  else if pfn < zoneDma32FrameLimit then some .dma32
  else some .normal

def zoneStart (lay : Layout) : ZoneType → ℕ
  | .dma => 0
  | .dma32 => zoneDmaFrameLimit
  | .normal => zoneDma32FrameLimit
  | .highmem => lay.directEndPfn

def zoneEnd (lay : Layout) : ZoneType → ℕ
  | .dma => zoneDmaFrameLimit
  | .dma32 => min lay.directEndPfn zoneDma32FrameLimit
  | .normal => max lay.directEndPfn zoneDma32FrameLimit
  | .highmem => lay.nrFrames

def nodeOfPfn (s : State) (pfn : ℕ) : ℕ :=
  if s.numaLive then
    match s.nrng.find? (fun r => decide (r.start ≤ pfn ∧ pfn < r.stop)) with
    | some r => r.node
    | none => 0
  else 0

def State.modZone (s : State) (nd : ℕ) (zi : ZoneType) (f : Zone → Zone) : State :=
  { s with zones := fun nd' zi' =>
      if nd' = nd ∧ zi' = zi then f (s.zones nd zi) else s.zones nd' zi' }

def State.addFree (s : State) (nd : ℕ) (zi : ZoneType) (n : ℕ) : State :=
  s.modZone nd zi (fun z => { z with freeFrames := z.freeFrames + n })

def State.subFree (s : State) (nd : ℕ) (zi : ZoneType) (n : ℕ) : State :=
  s.modZone nd zi (fun z => { z with freeFrames := z.freeFrames - n })

def linkStoreAt (s : State) (phys slot v : ℕ) : State :=
  { s with link := fun p k => if p = phys ∧ k = slot then v else s.link p k }

def Zone.setHead (z : Zone) (order phys : ℕ) : Zone :=
  { z with freeLists := Function.update z.freeLists order phys }

def Zone.setNr (z : Zone) (order n : ℕ) : Zone :=
  { z with nrAtOrder := Function.update z.nrAtOrder order n }

def zonePush (s : State) (nd : ℕ) (zi : ZoneType) (pfn order : ℕ) : State :=
  let phys := pfnToPhys pfn
  let head := (s.zones nd zi).freeLists order
  let s := linkStoreAt s phys 0 head
  let s := linkStoreAt s phys 1 0
  let s := if head ≠ 0 then linkStoreAt s head 1 phys else s
  let s := s.modZone nd zi (fun z => (z.setHead order phys).setNr order (z.nrAtOrder order + 1))
  { s with pageState := Function.update s.pageState pfn order }

-- `none` is the refusal -1, which leaves everything as it was.
def zoneRemove (s : State) (nd : ℕ) (zi : ZoneType) (pfn order : ℕ) : Option State :=
  let target := pfnToPhys pfn
  let next := s.link target 0
  let prev := s.link target 1
  let unlinked :=
    if prev ≠ 0 then some (linkStoreAt s prev 0 next)
    else if (s.zones nd zi).freeLists order = target then
      some (s.modZone nd zi (fun z => z.setHead order next))
    else none
  unlinked.map fun s =>
    let s := if next ≠ 0 then linkStoreAt s next 1 prev else s
    s.modZone nd zi (fun z => z.setNr order (z.nrAtOrder order - 1))

def zonePop (s : State) (nd : ℕ) (zi : ZoneType) (order : ℕ) : State × ℕ :=
  let head := (s.zones nd zi).freeLists order
  if head = 0 then (s, 0)
  else
    let next := s.link head 0
    let s := s.modZone nd zi (fun z => z.setHead order next)
    let s := if next ≠ 0 then linkStoreAt s next 1 0 else s
    (s.modZone nd zi (fun z => z.setNr order (z.nrAtOrder order - 1)), physToPfn head)

open DosKernel.Lib

def splitDown (nd : ℕ) (zi : ZoneType) (order : ℕ) : ℕ → State → ℕ → State
  | 0, s, _ => s
  | o + 1, s, pfn =>
    if order < o + 1 then splitDown nd zi order o (zonePush s nd zi (pfn + 2 ^ o) o) pfn
    else s

def firstOrder (z : Zone) : ℕ → ℕ → Option ℕ
  | 0, _ => none
  | n + 1, o => if z.freeLists o = 0 then firstOrder z n (o + 1) else some o

def markUsed (s : State) (pfn order : ℕ) : State :=
  { s with pageState := fun f => if InBlock pfn order f then psUsed else s.pageState f }

def buddyAllocInZone (s : State) (nd : ℕ) (zi : ZoneType) (order : ℕ) : State × ℕ :=
  if buddyMaxOrder < order then (s, 0)
  else
    match firstOrder (s.zones nd zi) (buddyMaxOrder + 1 - order) order with
    | none => (s, 0)
    | some o =>
      let (s, pfn) := zonePop s nd zi o
      let s := splitDown nd zi order o s pfn
      let s := markUsed s pfn order
      (s.subFree nd zi (2 ^ order), pfn)

def canMerge (lay : Layout) (s : State) (nd : ℕ) (zi : ZoneType) (b order : ℕ) : Bool :=
  decide (b < lay.nrFrames ∧ lay.pfnBase ≤ b) &&
  decide (zoneStart lay zi ≤ b ∧ b < zoneEnd lay zi) &&
  (!s.numaLive || decide (nodeOfPfn s b = nd)) &&
  decide (s.pageState b = order)

def coalesce (lay : Layout) (nd : ℕ) (zi : ZoneType) : ℕ → State → ℕ → ℕ → State × ℕ × ℕ
  | 0, s, pfn, order => (s, pfn, order)
  | n + 1, s, pfn, order =>
    if order < buddyMaxOrder then
      let b := buddy pfn order
      if canMerge lay s nd zi b order then
        match zoneRemove s nd zi b order with
        | none => (s, pfn, order)
        | some s => coalesce lay nd zi n s (min b pfn) (order + 1)
      else (s, pfn, order)
    else (s, pfn, order)

def buddyFreeInZone (lay : Layout) (s : State) (nd : ℕ) (zi : ZoneType) (pfn order : ℕ) : State :=
  if buddyMaxOrder < order then s
  else
    let s := s.addFree nd zi (2 ^ order)
    let (s, pfn, order) := coalesce lay nd zi (buddyMaxOrder - order) s pfn order
    zonePush s nd zi pfn order

-- The zones a hint allows, scarcest last: 0 is ZONE_DMA, 1 ZONE_DMA32, 3 ZONE_HIGHMEM.
def tryOrder (zoneHint : ℤ) : List ZoneType :=
  if zoneHint = 3 then [.highmem, .normal, .dma32, .dma]
  else if zoneHint = 0 then [.dma]
  else if zoneHint = 1 then [.dma32, .dma]
  else [.normal, .dma32, .dma]

-- Every zone but DMA node by node, the preferred node first, then DMA node by node.
def allocCandidates (s : State) (zoneHint : ℤ) (node : ℕ) : List (ℕ × ZoneType) :=
  [false, true].flatMap fun isDma =>
    (List.range s.nrNodes).flatMap fun k =>
      let nd := if k = 0 then node else if k ≤ node then k - 1 else k
      ((tryOrder zoneHint).filter (fun zi => decide (zi = .dma) == isDma)).map fun zi => (nd, zi)

def allocFrom (order node : ℕ) : List (ℕ × ZoneType) → State → State × ℕ
  | [], s => (s, 0)
  | (nd, zi) :: rest, s =>
    let (s', pfn) := buddyAllocInZone s nd zi order
    if pfn = 0 then allocFrom order node rest s
    else if 1 < s'.nrNodes then
      if nd = node then
        ({ s' with nodeHit := Function.update s'.nodeHit node (s'.nodeHit node + 1) }, pfnToPhys pfn)
      else
        ({ s' with nodeMiss := Function.update s'.nodeMiss node (s'.nodeMiss node + 1) },
          pfnToPhys pfn)
    else (s', pfnToPhys pfn)

def pageAllocNode (s : State) (order zoneHint node : ℤ) : State × ℕ :=
  let node := if node < 0 ∨ (s.nrNodes : ℤ) ≤ node then 0 else node.toNat
  if order < 0 ∨ (buddyMaxOrder : ℤ) < order then (s, 0)
  else allocFrom order.toNat node (allocCandidates s zoneHint node) s

def pageFree (lay : Layout) (s : State) (phys order : ℕ) : State :=
  if phys = 0 ∨ phys % pmmFrameSize ≠ 0 then s
  else
    let pfn := physToPfn phys
    match zoneOfPfn lay pfn with
    | none => s
    | some zi => buddyFreeInZone lay s (nodeOfPfn s pfn) zi pfn order

-- Walk one free list for the first block whose `bytes` end at or below the limit, take it off and
-- give the upper halves back.
def scanBelow (nd : ℕ) (zi : ZoneType) (order o limit : ℕ) : ℕ → State → ℕ → Option (State × ℕ)
  | 0, _, _ => none
  | n + 1, s, cur =>
    if cur = 0 then none
    else if limit < cur + pmmFrameSize * 2 ^ order - 1 then
      scanBelow nd zi order o limit n s (s.link cur 0)
    else
      match zoneRemove s nd zi (physToPfn cur) o with
      | none => scanBelow nd zi order o limit n s (s.link cur 0)
      | some s => some (splitDown nd zi order o s (physToPfn cur), cur)

def belowCandidates (s : State) (order : ℕ) : List (ℕ × ZoneType × ℕ) :=
  [.dma, .dma32, .normal].flatMap fun zi =>
    (List.range s.nrNodes).flatMap fun nd =>
      (List.range' order (buddyMaxOrder + 1 - order)).map fun o => (nd, zi, o)

def allocBelowFrom (lay : Layout) (order limit : ℕ) :
    List (ℕ × ZoneType × ℕ) → State → State × ℕ
  | [], s => (s, 0)
  | (nd, zi, o) :: rest, s =>
    match scanBelow nd zi order o limit lay.nrFrames s ((s.zones nd zi).freeLists o) with
    | none => allocBelowFrom lay order limit rest s
    | some r => r

def pageAllocBelow (lay : Layout) (s : State) (order : ℤ) (limit : ℕ) : State × ℕ :=
  if order < 0 ∨ (buddyMaxOrder : ℤ) < order then (s, 0)
  else allocBelowFrom lay order.toNat limit (belowCandidates s order.toNat) s

def State.addManaged (s : State) (nd : ℕ) (zi : ZoneType) (n : ℕ) : State :=
  s.modZone nd zi (fun z => { z with managed := z.managed + n })

-- The end of the run of usable frames from `pfn` on, in one zone and on one node.
def runEnd (lay : Layout) (s : State) (nd : ℕ) (zi : ZoneType) (stop : ℕ) : ℕ → ℕ → ℕ
  | 0, e => e
  | n + 1, e =>
    if e < zoneEnd lay zi ∧ e < stop ∧ s.pageState e = psUsed ∧ nodeOfPfn s e = nd then
      runEnd lay s nd zi stop n (e + 1)
    else e

def seedOrder (pfn stop : ℕ) : ℕ → ℕ
  | 0 => 0
  | o + 1 => if pfn % 2 ^ (o + 1) = 0 ∧ pfn + 2 ^ (o + 1) ≤ stop then o + 1
    else seedOrder pfn stop o

def seedRun (nd : ℕ) (zi : ZoneType) (stop : ℕ) : ℕ → State → ℕ → State
  | 0, s, _ => s
  | n + 1, s, pfn =>
    if pfn < stop then
      let order := seedOrder pfn stop buddyMaxOrder
      let s := ((zonePush s nd zi pfn order).addFree nd zi (2 ^ order)).addManaged nd zi (2 ^ order)
      seedRun nd zi stop n s (pfn + 2 ^ order)
    else s

def seedRange (lay : Layout) (stop : ℕ) : ℕ → State → ℕ → State
  | 0, s, _ => s
  | n + 1, s, pfn =>
    if pfn < stop then
      if s.pageState pfn ≠ psUsed then seedRange lay stop n s (pfn + 1)
      else
        match zoneOfPfn lay pfn with
        | none => seedRange lay stop n s (pfn + 1)
        | some zi =>
          let nd := nodeOfPfn s pfn
          let e := runEnd lay s nd zi stop (stop - pfn) pfn
          seedRange lay stop n (seedRun nd zi e (e - pfn) s pfn) e
    else s

-- The allocator as pass 3 of `pmm_init` finds it: usable frames marked, nothing on a list.
def bootState (lay : Layout) (usable : ℕ → Bool) : State where
  pageState pfn :=
    if usable pfn && decide (lay.pfnBase ≤ pfn ∧ pfn < lay.nrFrames) then psUsed else psNone
  link _ _ := 0
  zones _ _ := ⟨0, 0, fun _ => 0, fun _ => 0⟩
  nrng := []
  nrNodes := 1
  numaLive := false
  numaCommitted := false
  nodeHit _ := 0
  nodeMiss _ := 0
  deferredFrom := lay.nrFrames

-- Pass 3: seed up to `seedTo` and leave the rest for `pmm_seed_deferred`.
def pmmSeed (lay : Layout) (s : State) (seedTo : ℕ) : State :=
  { seedRange lay seedTo (seedTo - lay.pfnBase) s lay.pfnBase with deferredFrom := seedTo }

def pmmSeedDeferred (lay : Layout) (s : State) : State :=
  if lay.nrFrames ≤ s.deferredFrom then s
  else
    { seedRange lay lay.nrFrames (lay.nrFrames - s.deferredFrom) s s.deferredFrom with
      deferredFrom := lay.nrFrames }

-- The two arguments of the range are 64-bit numbers.
def pmmNumaAddRange (lay : Layout) (s : State) (base len : ℕ) (node : ℤ) : State × ℤ :=
  if s.numaCommitted ∨ node < 0 ∨ (pmmMaxNodes : ℤ) ≤ node ∨ len = 0 then (s, -1)
  else if s.nrng.length = pmmMaxRanges then (s, -1)
  else
    let start := base / pmmFrameSize
    let stop := min ((base + len) % 2 ^ 64 / pmmFrameSize) lay.nrFrames
    if lay.nrFrames ≤ start then (s, 0)
    else if stop ≤ start then (s, 0)
    else ({ s with nrng := s.nrng ++ [⟨start, stop, node.toNat⟩] }, 0)

-- `none` is the answer -1: a range boundary falls inside the block.
def blockNode (s : State) (pfn order : ℕ) : Option ℕ :=
  if s.nrng.any (fun r => decide (pfn < r.start ∧ r.start < pfn + 2 ^ order ∨
      pfn < r.stop ∧ r.stop < pfn + 2 ^ order)) then none
  else some (nodeOfPfn s pfn)

def rehomePush (s : State) (nd : ℕ) (zi : ZoneType) (pfn order : ℕ) : State :=
  (zonePush s nd zi pfn order).addFree nd zi (2 ^ order)

-- A single frame is never crossed by a boundary, so the recursion ends at order 0.
def rehomeBlock (zi : ZoneType) : ℕ → State → ℕ → State
  | 0, s, pfn =>
    match blockNode s pfn 0 with
    | none => s
    | some nd => rehomePush s nd zi pfn 0
  | o + 1, s, pfn =>
    match blockNode s pfn (o + 1) with
    | none => rehomeBlock zi o (rehomeBlock zi o s pfn) (pfn + 2 ^ o)
    | some nd => rehomePush s nd zi pfn (o + 1)

def rehomeList (zi : ZoneType) (o : ℕ) : ℕ → State → ℕ → State
  | 0, s, _ => s
  | n + 1, s, cur =>
    if cur = 0 then s
    else rehomeList zi o n (rehomeBlock zi o s (physToPfn cur)) (s.link cur 0)

def detachZone (s : State) (zi : ZoneType) : State :=
  s.modZone 0 zi (fun z =>
    { z with
      freeLists := fun o => if o ≤ buddyMaxOrder then 0 else z.freeLists o
      nrAtOrder := fun o => if o ≤ buddyMaxOrder then 0 else z.nrAtOrder o
      freeFrames := 0 })

def rehomeZone (lay : Layout) (top : ℕ) (s : State) (zi : ZoneType) : State :=
  let heads := (s.zones 0 zi).freeLists
  let s := { detachZone s zi with nrNodes := top + 1 }
  (List.range (buddyMaxOrder + 1)).foldl
    (fun s o => rehomeList zi o lay.nrFrames s (heads o)) s

def recountManaged (lay : Layout) (s : State) : State :=
  let s := { s with zones := fun nd zi =>
    if nd < s.nrNodes then { s.zones nd zi with managed := 0 } else s.zones nd zi }
  (List.range' lay.pfnBase (lay.nrFrames - lay.pfnBase)).foldl (fun s pfn =>
    if s.pageState pfn = psNone then s
    else
      match zoneOfPfn lay pfn with
      | none => s
      | some zi => s.addManaged (nodeOfPfn s pfn) zi 1) s

def topNode (ranges : List NodeRange) : ℕ :=
  ranges.foldl (fun top r => max top r.node) 0

def pmmNumaCommit (lay : Layout) (s : State) : State :=
  if s.numaCommitted then s
  else
    let s := { s with numaCommitted := true }
    let top := topNode s.nrng
    if s.nrng = [] ∨ top = 0 then { s with nrng := [] }
    else
      let s := { s with numaLive := true }
      let s := [ZoneType.dma, .dma32, .normal, .highmem].foldl (rehomeZone lay top) s
      recountManaged lay s

end DosKernel.Pmm
