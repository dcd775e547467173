/-
What the executors issue.

All three executors copy the same regions: one for each pair of blocks if they copy whole blocks,
and otherwise one for each pair, layer and outer index.  NIXL splits a copy where the registered
memory ends, which moves the same bytes.  Only the kernel may be given fewer copies than there
are, since it takes their number as an `i32`.
-/
import Kvbm.Transfer.Execute
import Kvbm.Proofs.Transfer.Address
import Kvbm.Proofs.Transfer.Plan

namespace Kvbm.Transfer

open Lib List

variable {src dst : PhysicalLayout} {pairs : List (Nat × Nat)} {layerRange : Option Range}
  {ops : List CopyOp}

/-! ### Splitting at the ends of registered memory -/

section Split

variable {ranges source destination : List Range} {a b m : Nat}

/-- The ranges lie end to end from `a` to `b`. -/
inductive Tiles : List Range → Nat → Nat → Prop
  | nil {a : Nat} : Tiles [] a a
  | cons {r : Range} {rest : List Range} {b : Nat} (h : r.start < r.stop)
      (hrest : Tiles rest r.stop b) : Tiles (r :: rest) r.start b

theorem Tiles.le (h : Tiles ranges a b) : a ≤ b := by
  induction h with
  | nil => exact Nat.le_refl _
  | cons => omega

theorem tiles_of_validateRanges (h : validateRanges ranges a b = true) : Tiles ranges a b := by
  induction ranges generalizing a with
  | nil =>
    obtain rfl : a = b := by simpa [validateRanges] using h
    exact .nil
  | cons r rest ih =>
    obtain ⟨rfl, hlt, -, hrest⟩ : r.start = a ∧ r.start < r.stop ∧ r.stop ≤ b ∧
      validateRanges rest r.stop b = true := by simpa [validateRanges] using h
    exact .cons hlt (ih hrest)

variable {rest : List Range} {r : Range} {n : Nat}

/-- Cutting off the front of the first range leaves a tiling. -/
theorem Tiles.cut (h : Tiles (r :: rest) a b) (hn : n ≤ r.len) :
    Tiles (if n = r.len then rest else ⟨r.start + n, r.stop⟩ :: rest) (a + n) b := by
  unfold Range.len at hn ⊢
  cases h with
  | cons hlt hrest =>
    split
    next he =>
      rw [show r.start + n = r.stop by omega]
      exact hrest
    next he => exact Tiles.cons (r := ⟨r.start + n, r.stop⟩) (by simp only; omega) hrest

theorem Tiles.eq_of_nil (h : Tiles [] a b) : a = b := by
  cases h
  rfl

theorem Tiles.head (h : Tiles (r :: rest) a b) : r.start = a ∧ r.start < r.stop ∧ r.stop ≤ b := by
  cases h with
  | cons hlt hrest => exact ⟨rfl, hlt, hrest.le⟩

/-- As long as both tilings are equally long, the pieces are the run of bytes. -/
theorem splitLoop_bytes {fuel : Nat} (hfuel : source.length + destination.length ≤ fuel)
    (hs : Tiles source a (a + m)) (hd : Tiles destination b (b + m)) :
    (splitLoop fuel source destination).flatMap CopyOp.bytes = run a b m := by
  induction fuel generalizing source destination a b m with
  | zero =>
    obtain rfl : source = [] := length_eq_zero_iff.mp (by omega)
    obtain rfl : m = 0 := by
      have := hs.eq_of_nil
      omega
    simp [splitLoop, run]
  | succ fuel ih =>
    rcases source with _ | ⟨s, source⟩
    · obtain rfl : m = 0 := by
        have := hs.eq_of_nil
        omega
      simp [splitLoop, run]
    rcases destination with _ | ⟨d, destination⟩
    · obtain rfl : m = 0 := by
        have := hd.eq_of_nil
        omega
      simp [splitLoop, run]
    · obtain ⟨hstart, hslt, hstop⟩ := hs.head
      obtain ⟨hstart', hdlt, hstop'⟩ := hd.head
      have hsource := hs.cut (Nat.min_le_left s.len d.len)
      have hdestination := hd.cut (Nat.min_le_right s.len d.len)
      generalize hsize : min s.len d.len = size at hsource hdestination
      have hle : size ≤ m := by
        unfold Range.len at hsize
        omega
      rw [show a + m = a + size + (m - size) by omega] at hsource
      rw [show b + m = b + size + (m - size) by omega] at hdestination
      rw [splitLoop, hsize, flatMap_cons, ih ?_ hsource hdestination]
      · rw [CopyOp.bytes, hstart, hstart', run_append, Nat.add_sub_cancel' hle]
      · -- one of the two ranges ended
        simp only [length_cons] at hfuel
        simp only [apply_ite length, length_cons]
        split
        all_goals
          split
          all_goals omega

theorem acquire_tiles {l : PhysicalLayout} (hn : 0 < n)
    (h : acquire l a n = .ok ranges) : Tiles ranges a (a + n) := by
  unfold acquire at h
  split at h
  next =>
    obtain rfl := Except.ok.inj h
    exact Tiles.cons (by simp only; omega) .nil
  next =>
    split at h
    next => cases h
    next =>
      split at h
      next hvalid =>
        obtain rfl := Except.ok.inj h
        exact tiles_of_validateRanges hvalid
      next => cases h

theorem appendPair_bytes {op : CopyOp} (h : appendPair src dst op = .ok ops) :
    ops.flatMap CopyOp.bytes = op.bytes := by
  unfold appendPair at h
  split at h
  next hzero =>
    obtain rfl := Except.ok.inj h
    simp [CopyOp.bytes, hzero, run]
  next hpos =>
    obtain ⟨source, hsource, h⟩ := bind_eq_ok.mp h
    obtain ⟨destination, hdestination, rfl⟩ := map_eq_ok.mp h
    have hpos : 0 < op.size := Nat.pos_of_ne_zero hpos
    exact splitLoop_bytes (Nat.le_refl _) (acquire_tiles hpos hsource)
      (acquire_tiles hpos hdestination)

end Split

/-! ### The copies before they are split or launched -/

/-- Where a region starts, if there is one. -/
def baseOf (l : PhysicalLayout) (block layer outer : Nat) : Nat :=
  match l.layout.memoryRegion block layer outer with
  | .ok r => r.addr
  | .error _ => 0

theorem baseOf_eq {l : PhysicalLayout} {block layer outer : Nat} {r : MemoryRegion}
    (h : l.layout.memoryRegion block layer outer = .ok r) :
    baseOf l block layer outer = r.addr := by
  rw [baseOf, h]

/-- The copy of `size` bytes from the start of a region to the start of another. -/
def copyAt (src dst : PhysicalLayout) (size : Nat) (c : (Nat × Nat) × Nat × Nat) : CopyOp :=
  ⟨baseOf src c.1.1 c.2.1 c.2.2, baseOf dst c.1.2 c.2.1 c.2.2, size⟩

/-- Both sides have the region. -/
def HasRegions (src dst : PhysicalLayout) (c : (Nat × Nat) × Nat × Nat) : Prop :=
  (∃ r, src.layout.memoryRegion c.1.1 c.2.1 c.2.2 = .ok r) ∧
    ∃ r, dst.layout.memoryRegion c.1.2 c.2.1 c.2.2 = .ok r

/-- The regions that are copied. -/
def issuedIds (src dst : PhysicalLayout) (pairs : List (Nat × Nat)) (layerRange : Option Range) :
    List ((Nat × Nat) × Nat × Nat) :=
  if canUseWholeBlockTransfer src dst layerRange then pairs.map fun pair => (pair, 0, 0)
  else chunkIds src pairs (layersOf src layerRange)

/-- How many bytes each copy has. -/
def issuedSize (src dst : PhysicalLayout) (layerRange : Option Range) : Nat :=
  if canUseWholeBlockTransfer src dst layerRange then src.layout.bytesPerBlock
  else src.layout.config.regionSize

theorem chunkRegions_eq_ok {c : (Nat × Nat) × Nat × Nat} {r r' : MemoryRegion}
    (h : chunkRegions src dst c = .ok (r, r')) :
    src.layout.memoryRegion c.1.1 c.2.1 c.2.2 = .ok r ∧
      dst.layout.memoryRegion c.1.2 c.2.1 c.2.2 = .ok r' := by
  obtain ⟨s, hs, h⟩ := bind_eq_ok.mp h
  obtain ⟨d, hd, he⟩ := map_eq_ok.mp h
  obtain ⟨rfl, rfl⟩ := Prod.mk.inj he
  exact ⟨mapError_eq_ok.mp hs, mapError_eq_ok.mp hd⟩

theorem wholeBlocks_eq_ok (h : wholeBlocks src dst pairs = .ok ops) :
    (∀ c ∈ pairs.map fun pair => (pair, 0, 0), HasRegions src dst c) ∧
      ops = (pairs.map fun pair => (pair, 0, 0)).map (copyAt src dst src.layout.bytesPerBlock) := by
  have hone : ∀ pair ∈ pairs, ∀ x, ((blockStarts src dst pair).map fun a =>
      [(⟨a.1, a.2, src.layout.bytesPerBlock⟩ : CopyOp)]) = .ok x →
      HasRegions src dst (pair, 0, 0) ∧
        x = [copyAt src dst src.layout.bytesPerBlock (pair, 0, 0)] := by
    intro pair _ x hx
    obtain ⟨a, ha, rfl⟩ := map_eq_ok.mp hx
    obtain ⟨s, hs, ha⟩ := bind_eq_ok.mp ha
    obtain ⟨d, hd, rfl⟩ := map_eq_ok.mp ha
    have hs := mapError_eq_ok.mp hs
    have hd := mapError_eq_ok.mp hd
    exact ⟨⟨⟨s, hs⟩, ⟨d, hd⟩⟩, by simp only [copyAt, baseOf_eq hs, baseOf_eq hd]⟩
  obtain ⟨hall, rfl⟩ := collect_eq_ok hone h
  refine ⟨?_, ?_⟩
  · intro c hc
    obtain ⟨pair, hpair, rfl⟩ := mem_map.mp hc
    exact hall pair hpair
  · rw [map_map, map_eq_flatMap]
    rfl

section Chunks

variable {layers : Range} {nh hd : Nat} {byteAt : Nat → Label → Nat → Nat}
  (hs : Placed src.layout nh hd byteAt)

include hs

theorem checkedChunks_eq_ok (h : checkedChunks src dst pairs layers = .ok ops) :
    (∀ c ∈ chunkIds src pairs layers, HasRegions src dst c) ∧
      ops = (chunkIds src pairs layers).map (copyAt src dst src.layout.config.regionSize) := by
  rw [map_eq_flatMap]
  refine collect_eq_ok (fun c _ x hx => ?_) h
  obtain ⟨⟨r, r'⟩, hr, hx⟩ := bind_eq_ok.mp hx
  obtain ⟨hr, hr'⟩ := chunkRegions_eq_ok hr
  obtain ⟨-, hx⟩ := ite_error_eq_ok.mp hx
  obtain rfl := Except.ok.inj hx
  have hsize := (hs.inRange _ _ _ _ hr).2.2.2
  exact ⟨⟨⟨r, hr⟩, ⟨r', hr'⟩⟩, by simp only [copyAt, baseOf_eq hr, baseOf_eq hr', hsize]⟩

omit hs in
theorem uniformChunks_eq_ok {size : Nat} (h : uniformChunks src dst pairs layers size = .ok ops) :
    (∀ c ∈ chunkIds src pairs layers, HasRegions src dst c) ∧
      ops = (chunkIds src pairs layers).map (copyAt src dst size) := by
  rw [map_eq_flatMap]
  refine collect_eq_ok (fun c _ x hx => ?_) h
  obtain ⟨⟨r, r'⟩, hr, rfl⟩ := map_eq_ok.mp hx
  obtain ⟨hr, hr'⟩ := chunkRegions_eq_ok hr
  exact ⟨⟨⟨r, hr⟩, ⟨r', hr'⟩⟩, by simp only [copyAt, baseOf_eq hr, baseOf_eq hr']⟩

theorem uniformChunkBytes_eq : uniformChunkBytes src = some src.layout.config.regionSize := by
  have hpos : src.layout.config.numLayers * src.layout.config.outerDim ≠ 0 := by
    have := Nat.mul_pos hs.valid.layers hs.valid.outer.1
    omega
  obtain ⟨n, hn⟩ := Nat.exists_eq_succ_of_ne_zero hpos
  unfold uniformChunkBytes
  rw [hs.regionSizes, hn, Nat.succ_eq_add_one, replicate_succ]
  simp only
  rw [if_pos fun bytes hbytes => (mem_replicate.mp hbytes).2]

/-- What is issued before it is split or launched. -/
theorem plain_eq_ok
    (h : (if canUseWholeBlockTransfer src dst layerRange then wholeBlocks src dst pairs
      else checkedChunks src dst pairs (layersOf src layerRange)) = .ok ops) :
    (∀ c ∈ issuedIds src dst pairs layerRange, HasRegions src dst c) ∧
      ops = (issuedIds src dst pairs layerRange).map
        (copyAt src dst (issuedSize src dst layerRange)) := by
  unfold issuedIds issuedSize
  split at h
  next hwhole =>
    rw [if_pos hwhole, if_pos hwhole]
    exact wholeBlocks_eq_ok h
  next hwhole =>
    rw [if_neg hwhole, if_neg hwhole]
    exact checkedChunks_eq_ok hs h

end Chunks

/-! ### What is issued -/

/-- The CUDA executor hands the copies to the kernel. -/
def usesKernel (src dst : PhysicalLayout) (layerRange : Option Range) : CopyEngine → Bool
  | .vectorizedKernel => true
  | .memcpyBatch => false
  | .auto => !canUseWholeBlockTransfer src dst layerRange

/-- The copies of an executor: `count` of those that there are. -/
structure Issues (src dst : PhysicalLayout) (pairs : List (Nat × Nat)) (layerRange : Option Range)
    (count : Nat) (ops : List CopyOp) : Prop where
  regions : ∀ c ∈ issuedIds src dst pairs layerRange, HasRegions src dst c
  bytes : ops.flatMap CopyOp.bytes = (((issuedIds src dst pairs layerRange).take count).map
    (copyAt src dst (issuedSize src dst layerRange))).flatMap CopyOp.bytes
  compatible : src.layout.blockLayout.requiresTransform dst.layout.blockLayout = false

theorem checkShapes_eq_ok {u : Unit} (h : checkShapes src dst = .ok u) :
    src.layout.blockLayout.requiresTransform dst.layout.blockLayout = false := by
  obtain ⟨-, -, h⟩ := bind_eq_ok.mp h
  obtain ⟨-, -, h⟩ := bind_eq_ok.mp h
  obtain ⟨-, -, h⟩ := bind_eq_ok.mp h
  exact ensure_eq_ok.mp h

section Executors

variable {nh hd : Nat} {byteAt : Nat → Label → Nat → Nat} (hs : Placed src.layout nh hd byteAt)

include hs

theorem executeMemcpyTransfer_issues
    (h : executeMemcpyTransfer src dst pairs layerRange = .ok ops) :
    Issues src dst pairs layerRange (issuedIds src dst pairs layerRange).length ops := by
  obtain ⟨_, hshapes, h⟩ := bind_eq_ok.mp h
  obtain ⟨hregions, rfl⟩ := plain_eq_ok hs h
  exact ⟨hregions, by rw [take_length], checkShapes_eq_ok hshapes⟩

variable {strategy : TransferStrategy} {copyEngine : CopyEngine}

theorem executeNixlTransfer_issues
    (h : executeNixlTransfer src dst pairs layerRange strategy = .ok ops) :
    Issues src dst pairs layerRange (issuedIds src dst pairs layerRange).length ops := by
  obtain ⟨_, hshapes, h⟩ := bind_eq_ok.mp h
  obtain ⟨-, h⟩ := ite_error_eq_ok.mp h
  obtain ⟨plain, hplain, h⟩ := bind_eq_ok.mp h
  obtain ⟨hregions, rfl⟩ := plain_eq_ok hs hplain
  refine ⟨hregions, ?_, checkShapes_eq_ok hshapes⟩
  rw [take_length]
  exact collect_flatMap (fun op _ x hx => appendPair_bytes hx) h

/-- How many of `total` copies the CUDA executor makes. -/
def launchCount (src dst : PhysicalLayout) (layerRange : Option Range) (copyEngine : CopyEngine)
    (total : Nat) : Nat :=
  if usesKernel src dst layerRange copyEngine then total % 2 ^ 32 else total

/-- The CUDA executor makes the same copies as the others, or hands them to the kernel. -/
theorem cudaCopies_eq_ok (h : cudaCopies src dst pairs layerRange copyEngine = .ok ops) :
    ∃ plain, ((∀ c ∈ issuedIds src dst pairs layerRange, HasRegions src dst c) ∧
        plain = (issuedIds src dst pairs layerRange).map
          (copyAt src dst (issuedSize src dst layerRange))) ∧
      if usesKernel src dst layerRange copyEngine then launchVectorizedCopy plain = .ok ops
      else ops = plain := by
  unfold cudaCopies at h
  unfold issuedIds issuedSize
  simp only [uniformChunkBytes_eq hs] at h
  by_cases hwhole : canUseWholeBlockTransfer src dst layerRange = true
  · rw [if_pos hwhole] at h
    rw [if_pos hwhole, if_pos hwhole]
    cases copyEngine with
    | auto => exact ⟨ops, wholeBlocks_eq_ok h, by simp [usesKernel, hwhole]⟩
    | memcpyBatch => exact ⟨ops, wholeBlocks_eq_ok h, by simp [usesKernel]⟩
    | vectorizedKernel =>
      obtain ⟨plain, hplain, hlaunch⟩ := bind_eq_ok.mp h
      exact ⟨plain, wholeBlocks_eq_ok hplain, by simpa [usesKernel] using hlaunch⟩
  · rw [if_neg hwhole] at h
    rw [if_neg hwhole, if_neg hwhole]
    cases copyEngine with
    | auto =>
      obtain ⟨plain, hplain, hlaunch⟩ := bind_eq_ok.mp h
      exact ⟨plain, uniformChunks_eq_ok hplain, by simpa [usesKernel, hwhole] using hlaunch⟩
    | memcpyBatch => exact ⟨ops, uniformChunks_eq_ok h, by simp [usesKernel]⟩
    | vectorizedKernel =>
      obtain ⟨plain, hplain, hlaunch⟩ := bind_eq_ok.mp h
      exact ⟨plain, uniformChunks_eq_ok hplain, by simpa [usesKernel] using hlaunch⟩

theorem executeCudaTransfer_issues
    (h : executeCudaTransfer src dst pairs layerRange copyEngine = .ok ops) :
    Issues src dst pairs layerRange (launchCount src dst layerRange copyEngine
      (issuedIds src dst pairs layerRange).length) ops := by
  obtain ⟨_, -, h⟩ := bind_eq_ok.mp h
  obtain ⟨_, -, h⟩ := bind_eq_ok.mp h
  obtain ⟨_, hshapes, h⟩ := bind_eq_ok.mp h
  obtain ⟨plain, ⟨hregions, rfl⟩, hlaunch⟩ := cudaCopies_eq_ok hs h
  refine ⟨hregions, ?_, checkShapes_eq_ok hshapes⟩
  unfold launchCount
  split at hlaunch
  next hkernel =>
    obtain ⟨-, hlaunch⟩ := ite_error_eq_ok.mp hlaunch
    rw [if_pos hkernel, ← Except.ok.inj hlaunch, length_map, map_take]
  next hkernel => rw [if_neg hkernel, take_length, hlaunch]

/-- How many copies a strategy makes, of those that there are. -/
def issuedCount (src dst : PhysicalLayout) (o : TransferOptions) (strategy : TransferStrategy)
    (total : Nat) : Nat :=
  if strategy.isCudaFamily then launchCount src dst o.layerRange o.copyEngine total else total

theorem executeDirectTransfer_issues {o : TransferOptions} {usePlanner : Bool}
    (h : executeDirectTransfer src dst pairs o usePlanner strategy = .ok (.copies ops)) :
    Issues src dst pairs o.layerRange
      (issuedCount src dst o strategy (issuedIds src dst pairs o.layerRange).length) ops ∧
      (o.axisSlices ≠ [] → strategy.isCudaFamily = false) := by
  have hcopies : ∀ {x : Except ExecuteError (List CopyOp)},
      x.map Issued.copies = .ok (.copies ops) → x = .ok ops := by
    intro x hx
    obtain ⟨y, hy, he⟩ := map_eq_ok.mp hx
    rw [hy, Issued.copies.inj he]
  unfold executeDirectTransfer at h
  obtain ⟨hslices, h⟩ := ite_error_eq_ok.mp h
  unfold issuedCount
  cases strategy with
  | memcpy =>
    obtain ⟨-, h⟩ := ite_error_eq_ok.mp h
    obtain ⟨-, h⟩ := ite_error_eq_ok.mp h
    exact ⟨executeMemcpyTransfer_issues hs (hcopies h), fun _ => rfl⟩
  | cudaAsyncH2D | cudaAsyncD2H | cudaAsyncD2D =>
    simp only at h
    split at h
    next =>
      obtain ⟨-, h⟩ := ite_error_eq_ok.mp h
      obtain ⟨-, ⟨⟩⟩ := ite_error_eq_ok.mp h
    next hplanner =>
      -- without the planner there are no slices
      refine ⟨executeCudaTransfer_issues hs (hcopies h), fun hne => ?_⟩
      exact absurd ⟨hne, by simpa using hplanner⟩ hslices
  | nixlRead | nixlWrite | nixlWriteFlipped | nixlReadFlipped =>
    obtain ⟨-, h⟩ := ite_error_eq_ok.mp h
    obtain ⟨-, h⟩ := ite_error_eq_ok.mp h
    split at h
    next => obtain ⟨-, ⟨⟩⟩ := ite_error_eq_ok.mp h
    next => exact ⟨executeNixlTransfer_issues hs (hcopies h), fun _ => rfl⟩
  | invalid => cases h

end Executors

/-- **What a transfer issues that does not go to the planner.** -/
theorem executeTransfer_issues {debug : Bool} {caps : TransferCapabilities}
    {srcBlockIds dstBlockIds : List Nat} {o : TransferOptions} {nh hd : Nat}
    {byteAt : Nat → Label → Nat → Nat} (hs : Placed src.layout nh hd byteAt)
    (h : executeTransfer debug caps src dst srcBlockIds dstBlockIds o = .ok (.copies ops)) :
    ∃ strategy, selectStrategy caps src.location dst.location = .ok (.direct strategy) ∧
      Issues src dst (srcBlockIds.zip dstBlockIds) o.layerRange
        (issuedCount src dst o strategy
          (issuedIds src dst (srcBlockIds.zip dstBlockIds) o.layerRange).length) ops ∧
      (o.axisSlices ≠ [] → strategy.isCudaFamily = false) ∧
      srcBlockIds.length = dstBlockIds.length := by
  obtain ⟨_, hvalidate, h⟩ := bind_eq_ok.mp h
  obtain ⟨_, hlength, -⟩ := bind_eq_ok.mp hvalidate
  obtain ⟨plan, hplan, h⟩ := bind_eq_ok.mp h
  match plan with
  | .direct strategy =>
    obtain ⟨hissues, hslices⟩ := executeDirectTransfer_issues hs h
    exact ⟨strategy, mapError_eq_ok.mp hplan, hissues, hslices, ensure_eq_ok.mp hlength⟩
  | .twoHop _ _ _ => obtain ⟨-, ⟨⟩⟩ := ite_error_eq_ok.mp h

end Kvbm.Transfer
