/-
Transfers without the planner move the selected elements, with three exceptions.

A copy of regions or of whole blocks pairs every byte of a label with the byte of the same label on
the other side, for the layers asked for.  That is what was selected unless a slice leaves
something out, which these executors do not look at; unless the layout is universal and only some
of its layers are asked for, because a region then is not one layer; and unless the kernel is
handed more copies than its counter holds.
-/
import Kvbm.Proofs.Transfer.Issue
import Mathlib.Order.Interval.Finset.Nat

namespace Kvbm.Transfer

open Lib List Option

/-! ### What is selected -/

/-- A slice maps a source coordinate to a destination coordinate. -/
def Admits (s : AxisIntersection) (v v' : Nat) : Prop :=
  s.srcLocal.contains v ∧ s.dstLocal.contains v' ∧ v - s.srcLocal.start = v' - s.dstLocal.start

/-- The coordinates `c` are to be copied to `c'`. -/
structure Selects (pairs : List (Nat × Nat)) (layers : Range) (slices : List AxisIntersection)
    (c c' : CoordByLabel) : Prop where
  block : ∃ pair ∈ pairs, c .block = some pair.1 ∧ c' .block = some pair.2
  layer : ∃ i, c' .layer = some i ∧ layers.contains i = true
  unsliced : ∀ d, d ≠ .block → (∀ s ∈ slices, s.dim ≠ d) → c d = c' d
  sliced : ∀ s ∈ slices, ∀ v v', c s.dim = some v → c' s.dim = some v' → Admits s v v'

/-- The copies write the destination bytes of the selected labels, each from the source byte of
its label, and no others. -/
def Exact (src dst : Layout) (pairs : List (Nat × Nat)) (layers : Range)
    (slices : List AxisIntersection) (ops : List CopyOp) : Prop :=
  ∀ p, p ∈ ops.flatMap CopyOp.bytes ↔
    ∃ block x block' x' addr addr' k,
      Selects pairs layers slices (coordOf block x) (coordOf block' x') ∧
      AddrAt src block x addr ∧ AddrAt dst block' x' addr' ∧ k < src.config.dtypeWidthBytes ∧
      p = (addr + k, addr' + k)

/-- The two layouts differ in their block counts only. -/
structure SameExtents (cfg cfg' : LayoutConfig) : Prop where
  layers : cfg.numLayers = cfg'.numLayers
  outer : cfg.outerDim = cfg'.outerDim
  page : cfg.pageSize = cfg'.pageSize
  width : cfg.dtypeWidthBytes = cfg'.dtypeWidthBytes

/-- The coordinate pairs that a copy of all elements in the layers moves along an axis. -/
def MovedAlong (pairs : List (Nat × Nat)) (layers : Range) (cfg : LayoutConfig) (nh hd v v' : Nat) :
    KvDim → Prop
  | .block => (v, v') ∈ pairs
  | .layer => v = v' ∧ layers.contains v = true
  | .outer => v = v' ∧ v < cfg.outerDim
  | .page => v = v' ∧ v < cfg.pageSize
  | .headCount => v = v' ∧ v < nh
  | .headSize => v = v' ∧ v < hd
  | .payload => False

/-- The slices leave nothing out and move nothing. -/
def Inert (pairs : List (Nat × Nat)) (layers : Range) (cfg : LayoutConfig) (nh hd : Nat)
    (slices : List AxisIntersection) : Prop :=
  ∀ s ∈ slices, ∀ v v', MovedAlong pairs layers cfg nh hd v v' s.dim → Admits s v v'

/-- The blocks and the layers that are asked for exist. -/
structure InRange (src dst : PhysicalLayout) (pairs : List (Nat × Nat)) (layers : Range) :
    Prop where
  blocks : ∀ pair ∈ pairs, pair.1 < src.layout.config.numBlocks ∧
    pair.2 < dst.layout.config.numBlocks
  layers : ∀ i, layers.contains i = true → i < src.layout.config.numLayers

theorem contains_iff {r : Range} {i : Nat} : r.contains i = true ↔ r.start ≤ i ∧ i < r.stop := by
  simp [Range.contains]

theorem contains_start {r : Range} (h : r.len ≠ 0) : r.contains r.start = true := by
  unfold Range.len at h
  rw [contains_iff]
  omega

/-- A slice that keeps one coordinate keeps every coordinate it admits. -/
theorem Admits.eq {s : AxisIntersection} {v v' w : Nat} (hw : Admits s w w) (h : Admits s v v') :
    v = v' := by
  obtain ⟨hsrc, hdst, hoff⟩ := h
  obtain ⟨hsrcw, hdstw, hoffw⟩ := hw
  rw [contains_iff] at *
  omega

section Copies

variable {src dst : PhysicalLayout} {pairs : List (Nat × Nat)} {layers : Range}
  {layerRange : Option Range} {slices : List AxisIntersection} {ops : List CopyOp}
  {nh hd count : Nat} {byteAt byteAt' : Nat → Label → Nat → Nat}

/-- The bytes of the labels in the layers, each with the byte of its label on the other side. -/
def LabelBytes (src : PhysicalLayout) (pairs : List (Nat × Nat)) (layers : Range) (nh hd : Nat)
    (byteAt byteAt' : Nat → Label → Nat → Nat) (p : Nat × Nat) : Prop :=
  ∃ pair ∈ pairs, ∃ (x : Label) (k : Nat), x.Fits src.layout.config nh hd ∧
    layers.contains x.layer = true ∧ k < src.layout.config.dtypeWidthBytes ∧
    p = (byteAt pair.1 x k, byteAt' pair.2 x k)

theorem mem_chunkIds {c : (Nat × Nat) × Nat × Nat} :
    c ∈ chunkIds src pairs layers ↔
      c.1 ∈ pairs ∧ layers.contains c.2.1 = true ∧ c.2.2 < src.layout.config.outerDim := by
  obtain ⟨pair, layer, outer⟩ := c
  simp only [chunkIds, List.mem_flatMap, List.mem_map, List.mem_range, Prod.mk.injEq, contains_iff,
    Range.len]
  constructor
  · intro ⟨pair', hpair, layer', ⟨i, hi, hlayer⟩, o, ho, hpair', hlayer', ho'⟩
    exact ⟨hpair' ▸ hpair, ⟨by omega, by omega⟩, by omega⟩
  · intro ⟨hpair, hlayer, ho⟩
    exact ⟨pair, hpair, layer, ⟨layer - layers.start, by omega, by omega⟩, outer, ho, rfl, rfl, rfl⟩

theorem length_chunkIds :
    (chunkIds src pairs layers).length =
      pairs.length * (layers.len * src.layout.config.outerDim) := by
  have hone : ∀ pair : Nat × Nat, (((range layers.len).map (layers.start + ·)).flatMap
      fun layer => (range src.layout.config.outerDim).map fun outer =>
        (pair, layer, outer)).length = layers.len * src.layout.config.outerDim := by
    intro pair
    simp [length_flatMap, Function.comp_def]
  simp only [chunkIds, length_flatMap, hone, map_const', sum_replicate_nat]

theorem order_eq (hs : Placed src.layout nh hd byteAt) (hd' : Placed dst.layout nh hd byteAt')
    (h : src.layout.blockLayout.requiresTransform dst.layout.blockLayout = false) :
    dst.layout.blockLayout = src.layout.blockLayout := by
  rcases hs.ordered with h1 | h1 | h1
  all_goals
    rcases hd'.ordered with h2 | h2 | h2
    all_goals
      rw [h1, h2] at h
      rw [h1, h2]
      try exact absurd h (by decide)

theorem whole_iff : canUseWholeBlockTransfer src dst layerRange = true ↔
    layersOf src layerRange = ⟨0, src.layout.config.numLayers⟩ ∧
      src.layout.isFullyContiguous = true ∧ dst.layout.isFullyContiguous = true := by
  simp only [canUseWholeBlockTransfer, Bool.and_eq_true, and_assoc]
  refine and_congr_left fun _ => ?_
  cases layerRange with
  | none => simp [layersOf]
  | some range =>
    obtain ⟨start, stop⟩ := range
    simp [layersOf]

section Same

variable (hs : Placed src.layout nh hd byteAt) (hd' : Placed dst.layout nh hd byteAt')
  (hsame : SameExtents src.layout.config dst.layout.config)

include hsame in
theorem fits_congr {x : Label} :
    x.Fits dst.layout.config nh hd ↔ x.Fits src.layout.config nh hd := by
  constructor
  all_goals
    intro h
    exact ⟨hsame.layers ▸ h.layer, hsame.outer ▸ h.outer, hsame.page ▸ h.page, h.head, h.elem⟩

include hs hd' hsame in
theorem regionSize_congr : dst.layout.config.regionSize = src.layout.config.regionSize := by
  rw [LayoutConfig.regionSize, LayoutConfig.regionSize, hs.heads, hd'.heads, hsame.page,
    hsame.width]

include hsame in
theorem regionDims_congr {order : KvBlockLayout} :
    regionDims order dst.layout.config nh hd = regionDims order src.layout.config nh hd := by
  unfold regionDims
  rw [hsame.page]

include hsame in
theorem blockDims_congr {order : KvBlockLayout} :
    blockDims order dst.layout.config nh hd = blockDims order src.layout.config nh hd := by
  unfold blockDims
  rw [hsame.page, hsame.layers, hsame.outer]
  simp only [regionDims_congr hsame]

variable (hcompatible : src.layout.blockLayout.requiresTransform dst.layout.blockLayout = false)

include hs hd' hsame hcompatible

theorem region_bytes {c : (Nat × Nat) × Nat × Nat} {p : Nat × Nat}
    (hone : src.layout.blockLayout ≠ .universal ∨ nh = 1) (hc : HasRegions src dst c) :
    p ∈ (copyAt src dst src.layout.config.regionSize c).bytes ↔
      ∃ (x : Label) (k : Nat), x.Fits src.layout.config nh hd ∧ x.layer = c.2.1 ∧
        x.outer = c.2.2 ∧ k < src.layout.config.dtypeWidthBytes ∧
        p = (byteAt c.1.1 x k, byteAt' c.1.2 x k) := by
  obtain ⟨⟨r, hr⟩, ⟨r', hr'⟩⟩ := hc
  have horder := order_eq hs hd' hcompatible
  obtain ⟨-, hlayer, houter, -⟩ := hs.inRange _ _ _ _ hr
  -- a label has the same place in both regions
  have hplaces : ∀ {x : Label} {k : Nat}, x.Fits src.layout.config nh hd → x.layer = c.2.1 →
      x.outer = c.2.2 → ∀ {j}, place (indexOf src.layout.config.dtypeWidthBytes
        (regionDims src.layout.blockLayout src.layout.config nh hd) 0 x k) = j →
      byteAt c.1.1 x k = r.addr + j ∧ byteAt' c.1.2 x k = r'.addr + j := by
    intro x k hx hl ho j hj
    rw [← hl, ← ho] at hr hr'
    constructor
    · rw [hs.region hone c.1.1 x r k hx hr, hj]
    · rw [hd'.region (by rwa [horder]) c.1.2 x r' k ((fits_congr hsame).mpr hx) hr', horder,
        regionDims_congr hsame, ← hsame.width, hj]
  simp only [CopyOp.bytes, copyAt, mem_run, baseOf_eq hr, baseOf_eq hr']
  constructor
  · rintro ⟨j, hj, hp⟩
    obtain ⟨x, k, hx, hl, ho, hk, hplace⟩ := exists_regionLabel hs.heads hlayer houter hj
    obtain ⟨h1, h2⟩ := hplaces hx hl ho hplace
    exact ⟨x, k, hx, hl, ho, hk, by rw [hp, h1, h2]⟩
  · rintro ⟨x, k, hx, hl, ho, hk, hp⟩
    obtain ⟨h1, h2⟩ := hplaces hx hl ho rfl
    refine ⟨_, ?_, by rw [hp, h1, h2]⟩
    rw [← @span_regionDims _ nh hd src.layout.blockLayout 0 k x hs.heads]
    exact place_lt (within_indexOf (along_regionDims.mpr ⟨hx.page, hx.head, hx.elem⟩) hk)

theorem whole_bytes {pair p : Nat × Nat} (hcs : src.layout.isFullyContiguous = true)
    (hcd : dst.layout.isFullyContiguous = true) (hc : HasRegions src dst (pair, 0, 0)) :
    p ∈ (copyAt src dst src.layout.bytesPerBlock (pair, 0, 0)).bytes ↔
      ∃ (x : Label) (k : Nat), x.Fits src.layout.config nh hd ∧
        k < src.layout.config.dtypeWidthBytes ∧ p = (byteAt pair.1 x k, byteAt' pair.2 x k) := by
  obtain ⟨⟨r, hr⟩, ⟨r', hr'⟩⟩ := hc
  have horder := order_eq hs hd' hcompatible
  have hplaces : ∀ {x : Label} {k j : Nat}, place (indexOf src.layout.config.dtypeWidthBytes
        (blockDims src.layout.blockLayout src.layout.config nh hd) 0 x k) = j →
      byteAt pair.1 x k = r.addr + j ∧ byteAt' pair.2 x k = r'.addr + j := by
    intro x k j hj
    constructor
    · rw [hs.whole hcs pair.1 x k r hr, hj]
    · rw [hd'.whole hcd pair.2 x k r' hr', horder, blockDims_congr hsame, ← hsame.width, hj]
  simp only [CopyOp.bytes, copyAt, mem_run, baseOf_eq hr, baseOf_eq hr', hs.blockBytes]
  constructor
  · rintro ⟨j, hj, hp⟩
    obtain ⟨x, k, hx, hk, hplace⟩ := exists_blockLabel hs.heads hj
    obtain ⟨h1, h2⟩ := hplaces hplace
    exact ⟨x, k, hx, hk, by rw [hp, h1, h2]⟩
  · rintro ⟨x, k, hx, hk, hp⟩
    obtain ⟨h1, h2⟩ := @hplaces x k _ rfl
    refine ⟨_, ?_, by rw [hp, h1, h2]⟩
    rw [← prod_blockDims hs.heads, ← span_indexOf]
    exact place_lt (within_indexOf (along_blockDims.mpr hx) hk)

omit hcompatible in
/-- If all copies are made, and regions are layers, the labels in the layers are moved. -/
theorem issued_bytes (h : Issues src dst pairs layerRange count ops)
    (hcount : (issuedIds src dst pairs layerRange).length ≤ count)
    (hlayers : src.layout.blockLayout ≠ .universal ∨
      layersOf src layerRange = ⟨0, src.layout.config.numLayers⟩ ∨ nh = 1) (p : Nat × Nat) :
    p ∈ ops.flatMap CopyOp.bytes ↔
      LabelBytes src pairs (layersOf src layerRange) nh hd byteAt byteAt' p := by
  rw [h.bytes, take_of_length_le hcount, flatMap_map, mem_flatMap]
  have hregions := h.regions
  unfold issuedIds issuedSize at *
  by_cases hwhole : canUseWholeBlockTransfer src dst layerRange = true
  · obtain ⟨hfull, hcs, hcd⟩ := whole_iff.mp hwhole
    simp only [if_pos hwhole] at hregions ⊢
    constructor
    · intro ⟨c, hc, hp⟩
      obtain ⟨pair, hpair, rfl⟩ := mem_map.mp hc
      obtain ⟨x, k, hx, hk, hp⟩ :=
        (whole_bytes hs hd' hsame h.compatible hcs hcd (hregions _ hc)).mp hp
      exact ⟨pair, hpair, x, k, hx, by rw [hfull, contains_iff]; exact ⟨Nat.zero_le _, hx.layer⟩,
        hk, hp⟩
    · intro ⟨pair, hpair, x, k, hx, _, hk, hp⟩
      have hc : (pair, 0, 0) ∈ pairs.map fun pair => (pair, 0, 0) := mem_map_of_mem hpair
      exact ⟨_, hc, (whole_bytes hs hd' hsame h.compatible hcs hcd (hregions _ hc)).mpr
        ⟨x, k, hx, hk, hp⟩⟩
  · simp only [if_neg hwhole] at hregions ⊢
    have hone : src.layout.blockLayout ≠ .universal ∨ nh = 1 := by
      by_contra hnot
      obtain ⟨huniversal, hheads⟩ : src.layout.blockLayout = .universal ∧ nh ≠ 1 := by
        simpa using hnot
      have hfull := (hlayers.resolve_left (by simpa using huniversal)).resolve_right hheads
      have huniversal' := (order_eq hs hd' h.compatible).trans huniversal
      exact hwhole (whole_iff.mpr ⟨hfull, hs.contiguous huniversal, hd'.contiguous huniversal'⟩)
    constructor
    · intro ⟨c, hc, hp⟩
      obtain ⟨hpair, hlayer, houter⟩ := mem_chunkIds.mp hc
      obtain ⟨x, k, hx, hl, ho, hk, hp⟩ :=
        (region_bytes hs hd' hsame h.compatible hone (hregions _ hc)).mp hp
      exact ⟨c.1, hpair, x, k, hx, by rwa [hl], hk, hp⟩
    · intro ⟨pair, hpair, x, k, hx, hlayer, hk, hp⟩
      have hc : (pair, x.layer, x.outer) ∈ chunkIds src pairs (layersOf src layerRange) :=
        mem_chunkIds.mpr ⟨hpair, hlayer, hx.outer⟩
      exact ⟨_, hc, (region_bytes hs hd' hsame h.compatible hone (hregions _ hc)).mpr
        ⟨x, k, hx, rfl, rfl, hk, hp⟩⟩

end Same

/-! ### What was selected, label by label -/

variable {cfg : LayoutConfig} {pair : Nat × Nat} {v v' : Nat} {d : KvDim}

theorem movedAlong_label {x : Label} (hpair : pair ∈ pairs) (hx : x.Fits cfg nh hd)
    (hlayer : layers.contains x.layer = true) (hv : coordOf pair.1 x d = some v)
    (hv' : coordOf pair.2 x d = some v') : MovedAlong pairs layers cfg nh hd v v' d := by
  cases d with
  | block =>
    obtain rfl : pair.1 = v := some.inj hv
    obtain rfl : pair.2 = v' := some.inj hv'
    exact hpair
  | payload => cases hv
  | layer | outer | page | headCount | headSize =>
    simp only [coordOf, some.injEq] at hv hv'
    simp [MovedAlong, ← hv, ← hv', hlayer, hx.outer, hx.page, hx.head, hx.elem]

variable {x x' : Label}

theorem label_ext (block block' : Nat)
    (h : ∀ d, d ≠ .block → coordOf block x d = coordOf block' x' d) : x = x' := by
  have hl := h .layer (by simp)
  have ho := h .outer (by simp)
  have hp := h .page (by simp)
  have hh := h .headCount (by simp)
  have he := h .headSize (by simp)
  simp only [coordOf, some.injEq] at hl ho hp hh he
  cases x
  cases x'
  simp_all

theorem Selects.label_eq {block block' : Nat}
    (hinert : Inert pairs layers cfg nh hd slices) (hx' : x'.Fits cfg nh hd)
    (h : Selects pairs layers slices (coordOf block x) (coordOf block' x')) : x = x' := by
  obtain ⟨pair, hpair, -, -⟩ := h.block
  obtain ⟨i, hi, hlayer⟩ := h.layer
  obtain rfl : x'.layer = i := some.inj hi
  refine label_ext block block' fun d hd => ?_
  by_cases hsliced : ∃ s ∈ slices, s.dim = d
  · obtain ⟨s, hs, rfl⟩ := hsliced
    by_cases hpayload : s.dim = .payload
    · rw [hpayload]
      rfl
    have hv := @coordOf_eq block x s.dim hpayload
    have hv' := @coordOf_eq block' x' s.dim hpayload
    -- the slice keeps the destination's coordinate, and hence all it admits
    have hself : ∀ b, coordOf b x' s.dim = some (x'.along block' s.dim) := by
      intro b
      rw [← hv']
      cases hdim : s.dim with
      | block => exact absurd hdim hd
      | payload | layer | outer | page | headCount | headSize => rfl
    have hmoved := movedAlong_label hpair hx' hlayer (hself pair.1) (hself pair.2)
    have := (hinert s hs _ _ hmoved).eq (h.sliced s hs _ _ hv hv')
    rw [hv, hv', this]
  · exact h.unsliced d hd fun s hs hdim => hsliced ⟨s, hs, hdim⟩

theorem selects_label {x : Label} (hinert : Inert pairs layers cfg nh hd slices)
    (hpair : pair ∈ pairs) (hx : x.Fits cfg nh hd) (hlayer : layers.contains x.layer = true) :
    Selects pairs layers slices (coordOf pair.1 x) (coordOf pair.2 x) where
  block := ⟨pair, hpair, rfl, rfl⟩
  layer := ⟨x.layer, rfl, hlayer⟩
  unsliced := fun d hd _ => by
    cases d with
    | block => exact absurd rfl hd
    | payload | layer | outer | page | headCount | headSize => rfl
  sliced := fun s hs v v' hv hv' =>
    hinert s hs v v' (movedAlong_label hpair hx hlayer hv hv')

/-- Along every axis, each coordinate pair that is moved is that of some label. -/
theorem exists_label_along (hvalid : cfg.Valid) (hheads : 0 < nh ∧ 0 < hd)
    (hlayers : ∀ i, layers.contains i = true → i < cfg.numLayers) (hne : pairs ≠ [])
    (hlen : layers.len ≠ 0) (h : MovedAlong pairs layers cfg nh hd v v' d) :
    ∃ pair ∈ pairs, ∃ x : Label, x.Fits cfg nh hd ∧ layers.contains x.layer = true ∧
      coordOf pair.1 x d = some v ∧ coordOf pair.2 x d = some v' := by
  obtain ⟨pair, hpair⟩ := exists_mem_of_ne_nil pairs hne
  have hstart := contains_start hlen
  have hfits : Label.Fits ⟨layers.start, 0, 0, 0, 0⟩ cfg nh hd :=
    ⟨hlayers _ hstart, hvalid.outer.1, pageSize_pos hvalid, hheads.1, hheads.2⟩
  cases d with
  | block => exact ⟨(v, v'), h, _, hfits, hstart, rfl, rfl⟩
  | payload => exact h.elim
  | layer =>
    obtain ⟨rfl, hv⟩ := h
    exact ⟨pair, hpair, ⟨v, 0, 0, 0, 0⟩, { hfits with layer := hlayers v hv }, hv, rfl, rfl⟩
  | outer =>
    obtain ⟨rfl, hv⟩ := h
    exact ⟨pair, hpair, ⟨_, v, 0, 0, 0⟩, { hfits with outer := hv }, hstart, rfl, rfl⟩
  | page =>
    obtain ⟨rfl, hv⟩ := h
    exact ⟨pair, hpair, ⟨_, 0, v, 0, 0⟩, { hfits with page := hv }, hstart, rfl, rfl⟩
  | headCount =>
    obtain ⟨rfl, hv⟩ := h
    exact ⟨pair, hpair, ⟨_, 0, 0, v, 0⟩, { hfits with head := hv }, hstart, rfl, rfl⟩
  | headSize =>
    obtain ⟨rfl, hv⟩ := h
    exact ⟨pair, hpair, ⟨_, 0, 0, 0, v⟩, { hfits with elem := hv }, hstart, rfl, rfl⟩

section Placed

variable (hs : Placed src.layout nh hd byteAt) (hd' : Placed dst.layout nh hd byteAt')
  (hsame : SameExtents src.layout.config dst.layout.config)

include hs hd' hsame

theorem selected_iff (hinert : Inert pairs layers src.layout.config nh hd slices)
    (hin : InRange src dst pairs layers) {p : Nat × Nat} :
    (∃ block x block' x' addr addr' k,
      Selects pairs layers slices (coordOf block x) (coordOf block' x') ∧
      AddrAt src.layout block x addr ∧ AddrAt dst.layout block' x' addr' ∧
      k < src.layout.config.dtypeWidthBytes ∧ p = (addr + k, addr' + k)) ↔
    LabelBytes src pairs layers nh hd byteAt byteAt' p := by
  constructor
  · intro ⟨block, x, block', x', addr, addr', k, hsel, haddr, haddr', hk, hp⟩
    obtain ⟨-, hx, rfl⟩ := (hs.view _ _ _).mp haddr
    obtain ⟨-, hx', rfl⟩ := (hd'.view _ _ _).mp haddr'
    obtain rfl : x = x' := hsel.label_eq hinert ((fits_congr hsame).mp hx')
    obtain ⟨pair, hpair, hb, hb'⟩ := hsel.block
    obtain ⟨i, hi, hlayer⟩ := hsel.layer
    obtain rfl : block = pair.1 := some.inj hb
    obtain rfl : block' = pair.2 := some.inj hb'
    obtain rfl : x.layer = i := some.inj hi
    exact ⟨pair, hpair, x, k, hx, hlayer, hk, by rw [hp, ← hs.byte, ← hd'.byte]⟩
  · intro ⟨pair, hpair, x, k, hx, hlayer, hk, hp⟩
    obtain ⟨hb, hb'⟩ := hin.blocks pair hpair
    refine ⟨pair.1, x, pair.2, x, _, _, k, selects_label hinert hpair hx hlayer,
      (hs.view _ _ _).mpr ⟨hb, hx, rfl⟩,
      (hd'.view _ _ _).mpr ⟨hb', (fits_congr hsame).mpr hx, rfl⟩, hk, ?_⟩
    rw [hp, hs.byte, hd'.byte]

variable {pair : Nat × Nat}

/-- What is selected at the addresses of two labels are these labels. -/
theorem Exact.selects {x x' : Label} {k k' : Nat}
    (hexact : Exact src.layout dst.layout pairs layers slices ops)
    (hb : pair.1 < src.layout.config.numBlocks) (hb' : pair.2 < dst.layout.config.numBlocks)
    (hx : x.Fits src.layout.config nh hd) (hx' : x'.Fits src.layout.config nh hd)
    (hk : k < src.layout.config.dtypeWidthBytes) (hk' : k' < src.layout.config.dtypeWidthBytes)
    (hp : (byteAt pair.1 x k, byteAt' pair.2 x' k') ∈ ops.flatMap CopyOp.bytes) :
    Selects pairs layers slices (coordOf pair.1 x) (coordOf pair.2 x') := by
  obtain ⟨block, y, block', y', addr, addr', j, hsel, haddr, haddr', hj, he⟩ := (hexact _).mp hp
  obtain ⟨hblock, hy, rfl⟩ := (hs.view _ _ _).mp haddr
  obtain ⟨hblock', hy', rfl⟩ := (hd'.view _ _ _).mp haddr'
  obtain ⟨he, he'⟩ := Prod.mk.inj he
  rw [← hs.byte] at he
  rw [← hd'.byte] at he'
  obtain ⟨rfl, rfl, -⟩ := hs.inj hb hx hk hblock hy hj he
  obtain ⟨rfl, rfl, -⟩ := hd'.inj hb' ((fits_congr hsame).mpr hx') (hsame.width ▸ hk') hblock' hy'
    (hsame.width ▸ hj) he'
  exact hsel

/-- Slices may be ignored only if they leave nothing out. -/
theorem Exact.inert (hexact : Exact src.layout dst.layout pairs layers slices ops)
    (hmoved : ∀ p, LabelBytes src pairs layers nh hd byteAt byteAt' p →
      p ∈ ops.flatMap CopyOp.bytes)
    (hin : InRange src dst pairs layers) (hne : pairs ≠ []) (hlen : layers.len ≠ 0) :
    Inert pairs layers src.layout.config nh hd slices := by
  intro s hslice v v' hv
  obtain ⟨pair, hpair, x, hx, hlayer, hc, hc'⟩ :=
    exists_label_along hs.valid hs.heads_pos hin.layers hne hlen hv
  obtain ⟨hb, hb'⟩ := hin.blocks pair hpair
  have hwidth := dtypeWidth_pos hs.valid
  have hmem := hmoved _ ⟨pair, hpair, x, 0, hx, hlayer, hwidth, rfl⟩
  have hsel := hexact.selects hs hd' hsame hb hb' hx hx hwidth hwidth hmem
  exact hsel.sliced s hslice v v' hc hc'

/-! ### Layers of the universal layout -/

omit hd' hsame in
/-- What was copied exists on both sides. -/
theorem Issues.inRange (h : Issues src dst pairs layerRange count ops) (hne : pairs ≠ [])
    (hlen : (layersOf src layerRange).len ≠ 0) (hdst : Placed dst.layout nh hd byteAt') :
    InRange src dst pairs (layersOf src layerRange) := by
  have hregions := h.regions
  unfold issuedIds at hregions
  have houter := hs.valid.outer.1
  by_cases hwhole : canUseWholeBlockTransfer src dst layerRange = true
  · rw [if_pos hwhole] at hregions
    rw [(whole_iff.mp hwhole).1]
    refine ⟨fun pair hpair => ?_, fun i hi => (contains_iff.mp hi).2⟩
    obtain ⟨⟨r, hr⟩, ⟨r', hr'⟩⟩ := hregions _ (mem_map_of_mem hpair)
    exact ⟨(hs.inRange _ _ _ _ hr).1, (hdst.inRange _ _ _ _ hr').1⟩
  · rw [if_neg hwhole] at hregions
    refine ⟨fun pair hpair => ?_, fun i hi => ?_⟩
    · obtain ⟨⟨r, hr⟩, ⟨r', hr'⟩⟩ :=
        hregions (pair, _, 0) (mem_chunkIds.mpr ⟨hpair, contains_start hlen, houter⟩)
      exact ⟨(hs.inRange _ _ _ _ hr).1, (hdst.inRange _ _ _ _ hr').1⟩
    · obtain ⟨pair, hpair⟩ := exists_mem_of_ne_nil pairs hne
      obtain ⟨⟨r, hr⟩, -⟩ := hregions (pair, i, 0) (mem_chunkIds.mpr ⟨hpair, hi, houter⟩)
      exact (hs.inRange _ _ _ _ hr).2.1

omit hs hd' hsame in
/-- With the heads around the layers, the regions of some layers hold cells of another layer. -/
theorem exists_foreign_cell {nl a b : Nat} (n : Nat) (hab : a < b) (hb : b ≤ nl) (hn : 2 ≤ n)
    (hpart : ¬(a = 0 ∧ b = nl)) : ∃ c, a * n ≤ c ∧ c < b * n ∧ ¬(a ≤ c % nl ∧ c % nl < b) := by
  have hlt : a * n + (b - a) < b * n := by
    have h1 : (b - a) * 2 ≤ (b - a) * n := Nat.mul_le_mul_left _ hn
    have h2 : b * n = a * n + (b - a) * n := by
      rw [← Nat.add_mul, Nat.add_sub_cancel' (Nat.le_of_lt hab)]
    omega
  by_cases hfirst : a ≤ a * n % nl ∧ a * n % nl < b
  · -- go on from the first cell to the end of the layers
    refine ⟨a * n + (b - a * n % nl), by omega, by omega, ?_⟩
    have hmod : (a * n + (b - a * n % nl)) % nl = b % nl := by
      have hdiv := Nat.div_add_mod (a * n) nl
      rw [show a * n + (b - a * n % nl) = b + nl * (a * n / nl) by omega, Nat.add_mul_mod_self_left]
    rw [hmod]
    by_cases hend : b = nl
    · rw [hend, Nat.mod_self]
      omega
    · rw [Nat.mod_eq_of_lt (by omega)]
      omega
  · exact ⟨a * n, Nat.le_refl _, by omega, hfirst⟩

omit hs hd' hsame in
/-- The cell of a head and a layer is a place of the universal layout. -/
theorem place_cell {cfg : LayoutConfig} {layer head : Nat} :
    place (indexOf cfg.dtypeWidthBytes (blockDims .universal cfg nh hd) 0
      ⟨layer, 0, 0, head, 0⟩ 0) =
      (head * cfg.numLayers + layer) *
        (cfg.outerDim * (cfg.pageSize * (hd * cfg.dtypeWidthBytes))) := by
  simp only [blockDims, indexOf, Label.along, coordOf, map_cons, map_nil,
    cons_append, nil_append, place, span_cons, span_nil, getD_some]
  ring

theorem cell_moved {a b c : Nat} (huniversal : src.layout.blockLayout = .universal)
    (huniversal' : dst.layout.blockLayout = .universal)
    (hregions : ∀ c ∈ chunkIds src pairs ⟨a, b⟩, HasRegions src dst c) (hpair : pair ∈ pairs)
    (hb : pair.1 < src.layout.config.numBlocks) (hb' : pair.2 < dst.layout.config.numBlocks)
    (hac : a * nh ≤ c) (hcb : c < b * nh) :
    (byteAt pair.1 ⟨c % src.layout.config.numLayers, 0, 0, c / src.layout.config.numLayers, 0⟩ 0,
      byteAt' pair.2 ⟨c % src.layout.config.numLayers, 0, 0, c / src.layout.config.numLayers, 0⟩
        0) ∈ ((chunkIds src pairs ⟨a, b⟩).map
        (copyAt src dst src.layout.config.regionSize)).flatMap CopyOp.bytes := by
  obtain ⟨hnh, hhd⟩ := hs.heads_pos
  obtain ⟨r, hr⟩ := hs.exists_region pair.1 0 0 hb hs.valid.layers hs.valid.outer.1
  obtain ⟨r', hr'⟩ := hd'.exists_region pair.2 0 0 hb' hd'.valid.layers hd'.valid.outer.1
  -- where the cell starts in its block
  generalize hcellSize : src.layout.config.outerDim *
    (src.layout.config.pageSize * (hd * src.layout.config.dtypeWidthBytes)) = cell
  have hlayerSize : src.layout.config.outerDim * src.layout.config.regionSize = nh * cell := by
    rw [LayoutConfig.regionSize, hs.heads, ← hcellSize]
    ring
  have hsrc : byteAt pair.1 ⟨c % src.layout.config.numLayers, 0, 0,
      c / src.layout.config.numLayers, 0⟩ 0 = r.addr + c * cell := by
    rw [hs.whole (hs.contiguous huniversal) _ _ _ r hr, huniversal, place_cell, hcellSize,
      Nat.div_add_mod']
  have hdst : byteAt' pair.2 ⟨c % src.layout.config.numLayers, 0, 0,
      c / src.layout.config.numLayers, 0⟩ 0 = r'.addr + c * cell := by
    rw [hd'.whole (hd'.contiguous huniversal') _ _ _ r' hr', huniversal', place_cell,
      ← hsame.layers, ← hsame.outer, ← hsame.page, ← hsame.width, hcellSize, Nat.div_add_mod']
  -- and in which region that is
  have hregion := hs.regionSize_pos
  have hlt : c % nh * cell < src.layout.config.regionSize * src.layout.config.outerDim := by
    rw [Nat.mul_comm src.layout.config.regionSize, hlayerSize]
    have hpos : 0 < cell := by
      have := Nat.mul_pos hs.valid.outer.1 hregion
      rw [hlayerSize] at this
      exact Nat.pos_of_mul_pos_left this
    exact Nat.mul_lt_mul_of_pos_right (Nat.mod_lt c hnh) hpos
  have hplace : (c / nh * src.layout.config.outerDim +
      c % nh * cell / src.layout.config.regionSize) * src.layout.config.regionSize +
        c % nh * cell % src.layout.config.regionSize = c * cell := by
    rw [Nat.add_mul, Nat.add_assoc, Nat.div_add_mod', Nat.mul_assoc, hlayerSize, ← Nat.mul_assoc,
      ← Nat.add_mul, Nat.div_add_mod']
  have hc : (pair, c / nh, c % nh * cell / src.layout.config.regionSize) ∈
      chunkIds src pairs ⟨a, b⟩ := by
    refine mem_chunkIds.mpr ⟨hpair, contains_iff.mpr ⟨?_, ?_⟩, Nat.div_lt_of_lt_mul hlt⟩
    · exact (Nat.le_div_iff_mul_le hnh).mpr hac
    · exact (Nat.div_lt_iff_lt_mul hnh).mpr hcb
  obtain ⟨⟨q, hq⟩, ⟨q', hq'⟩⟩ := hregions _ hc
  rw [flatMap_map, mem_flatMap]
  refine ⟨_, hc, ?_⟩
  have haddr := hs.wholeRegion (hs.contiguous huniversal) _ _ _ r q hr hq
  have haddr' := hd'.wholeRegion (hd'.contiguous huniversal') _ _ _ r' q' hr' hq'
  rw [← hsame.outer, regionSize_congr hs hd' hsame] at haddr'
  simp only [CopyOp.bytes, copyAt, mem_run, baseOf_eq hq, baseOf_eq hq']
  refine ⟨c % nh * cell % src.layout.config.regionSize, Nat.mod_lt _ hregion, ?_⟩
  rw [hsrc, hdst, haddr, haddr', Nat.add_assoc, Nat.add_assoc, hplace]

/-- Some layers of a universal layout with several heads cannot be copied by regions. -/
theorem Exact.layers_whole
    (hexact : Exact src.layout dst.layout pairs (layersOf src layerRange) slices ops)
    (h : Issues src dst pairs layerRange count ops)
    (hcount : (issuedIds src dst pairs layerRange).length ≤ count) (hne : pairs ≠ [])
    (hlen : (layersOf src layerRange).len ≠ 0) :
    src.layout.blockLayout ≠ .universal ∨
      layersOf src layerRange = ⟨0, src.layout.config.numLayers⟩ ∨ nh = 1 := by
  by_contra hnot
  obtain ⟨huniversal, hpart, hheads⟩ : src.layout.blockLayout = .universal ∧
      layersOf src layerRange ≠ ⟨0, src.layout.config.numLayers⟩ ∧ nh ≠ 1 := by
    simpa using hnot
  have huniversal' := (order_eq hs hd' h.compatible).trans huniversal
  have hcs := hs.contiguous huniversal
  have hcd := hd'.contiguous huniversal'
  obtain ⟨hpairs, hlayers⟩ := h.inRange hs hne hlen hd'
  have hwhole : ¬canUseWholeBlockTransfer src dst layerRange = true :=
    fun hwhole => hpart (whole_iff.mp hwhole).1
  obtain ⟨pair, hpair⟩ := exists_mem_of_ne_nil pairs hne
  obtain ⟨hb, hb'⟩ := hpairs pair hpair
  have hregions := h.regions
  have hbytes := h.bytes
  rw [take_of_length_le hcount] at hbytes
  unfold issuedIds at hregions hbytes
  unfold issuedSize at hbytes
  simp only [if_neg hwhole] at hregions hbytes
  -- a cell of another layer
  generalize hrange : layersOf src layerRange = range at *
  obtain ⟨a, b⟩ := range
  simp only [Range.len] at hlen
  have hbn : b ≤ src.layout.config.numLayers := by
    have := hlayers (b - 1) (by rw [contains_iff]; simp only; omega)
    omega
  obtain ⟨c, hac, hcb, hforeign⟩ := exists_foreign_cell (a := a) (b := b) nh (by omega) hbn
    (by have := hs.heads_pos.1; omega) (by
      intro ⟨ha, hb⟩
      exact hpart (by rw [ha, hb]))
  have hcell := cell_moved hs hd' hsame huniversal huniversal' hregions hpair hb hb' hac hcb
  rw [← hbytes] at hcell
  have hx : Label.Fits ⟨c % src.layout.config.numLayers, 0, 0, c / src.layout.config.numLayers, 0⟩
      src.layout.config nh hd := by
    refine ⟨Nat.mod_lt _ hs.valid.layers, hs.valid.outer.1, pageSize_pos hs.valid, ?_,
      hs.heads_pos.2⟩
    exact Nat.div_lt_of_lt_mul (Nat.lt_of_lt_of_le hcb (Nat.mul_le_mul_right _ hbn))
  have hwidth := dtypeWidth_pos hs.valid
  have hsel := hexact.selects hs hd' hsame hb hb' hx hx hwidth hwidth hcell
  obtain ⟨i, hi, hlayer⟩ := hsel.layer
  obtain rfl : c % src.layout.config.numLayers = i := some.inj hi
  exact hforeign (contains_iff.mp hlayer)

/-! ### All copies are needed -/

omit hs hd' hsame in
theorem length_copies {size : Nat} (ids : List ((Nat × Nat) × Nat × Nat)) :
    ((ids.map (copyAt src dst size)).flatMap CopyOp.bytes).length = ids.length * size := by
  induction ids with
  | nil => simp
  | cons c ids ih =>
    rw [map_cons, flatMap_cons, length_append, ih, length_cons,
      Nat.add_mul, Nat.one_mul, Nat.add_comm]
    simp [CopyOp.bytes, copyAt, run]

/-- Without slices every byte of the labels is written, and no two are the same. -/
theorem Exact.length_le (hexact : Exact src.layout dst.layout pairs layers [] ops)
    (hdistinct : (pairs.map Prod.snd).Nodup) (hin : InRange src dst pairs layers) :
    pairs.length * (layers.len * (src.layout.config.outerDim * src.layout.config.regionSize)) ≤
      (ops.flatMap CopyOp.bytes).length := by
  let cfg := src.layout.config
  let labels : Finset (Nat × Nat × Nat × Nat × Nat × Nat × Nat) :=
    (pairs.map Prod.snd).toFinset ×ˢ Finset.Ico layers.start layers.stop ×ˢ
      Finset.range cfg.outerDim ×ˢ Finset.range cfg.pageSize ×ˢ Finset.range nh ×ˢ
      Finset.range hd ×ˢ Finset.range cfg.dtypeWidthBytes
  let f : Nat × Nat × Nat × Nat × Nat × Nat × Nat → Nat :=
    fun t => byteAt' t.1 ⟨t.2.1, t.2.2.1, t.2.2.2.1, t.2.2.2.2.1, t.2.2.2.2.2.1⟩ t.2.2.2.2.2.2
  have hfits : ∀ t ∈ labels, (∃ pair ∈ pairs, pair.2 = t.1) ∧
      Label.Fits ⟨t.2.1, t.2.2.1, t.2.2.2.1, t.2.2.2.2.1, t.2.2.2.2.2.1⟩ cfg nh hd ∧
      layers.contains t.2.1 = true ∧ t.2.2.2.2.2.2 < cfg.dtypeWidthBytes := by
    intro t ht
    simp only [labels, Finset.mem_product, List.mem_toFinset, List.mem_map, Finset.mem_Ico,
      Finset.mem_range] at ht
    obtain ⟨hpair, hl, ho, hp, hh, he, hk⟩ := ht
    have hl := contains_iff.mpr hl
    exact ⟨hpair, ⟨hin.layers _ hl, ho, hp, hh, he⟩, hl, hk⟩
  have hmem : ∀ t ∈ labels, f t ∈ ((ops.flatMap CopyOp.bytes).map Prod.snd).toFinset := by
    intro t ht
    obtain ⟨⟨pair, hpair, hb⟩, hx, hl, hk⟩ := hfits t ht
    have hinert : Inert pairs layers cfg nh hd [] := by simp [Inert]
    have := (hexact (byteAt pair.1 _ _, f t)).mpr ((selected_iff hs hd' hsame hinert hin).mpr
      ⟨pair, hpair, _, _, hx, hl, hk, by rw [hb]⟩)
    exact mem_toFinset.mpr (mem_map_of_mem this)
  have hinj : Set.InjOn f labels := by
    intro t ht t' ht' he
    obtain ⟨⟨pair, hpair, hb⟩, hx, -, hk⟩ := hfits t ht
    obtain ⟨⟨pair', hpair', hb'⟩, hx', -, hk'⟩ := hfits t' ht'
    obtain ⟨h1, h2, h3⟩ := hd'.inj (hb ▸ (hin.blocks pair hpair).2) ((fits_congr hsame).mpr hx)
      (hsame.width ▸ hk) (hb' ▸ (hin.blocks pair' hpair').2) ((fits_congr hsame).mpr hx')
      (hsame.width ▸ hk') he
    obtain ⟨b, l, o, p, h, e, k⟩ := t
    obtain ⟨b', l', o', p', h', e', k'⟩ := t'
    simp_all
  have hcard := Finset.card_le_card_of_injOn f hmem hinj
  have hlabels : labels.card = pairs.length * (layers.len * (cfg.outerDim * cfg.regionSize)) := by
    simp only [labels, Finset.card_product, toFinset_card_of_nodup hdistinct,
      length_map, Nat.card_Ico, Finset.card_range]
    rw [LayoutConfig.regionSize, hs.heads, Range.len]
    ring
  calc _ = labels.card := hlabels.symm
    _ ≤ _ := hcard
    _ ≤ _ := toFinset_card_le _
    _ = _ := length_map _

theorem Exact.all_copied
    (hexact : Exact src.layout dst.layout pairs (layersOf src layerRange) [] ops)
    (hdistinct : (pairs.map Prod.snd).Nodup) (h : Issues src dst pairs layerRange count ops)
    (hne : pairs ≠ []) (hlen : (layersOf src layerRange).len ≠ 0) :
    (issuedIds src dst pairs layerRange).length ≤ count := by
  have hle := hexact.length_le hs hd' hsame hdistinct (h.inRange hs hne hlen hd')
  rw [h.bytes, length_copies, length_take] at hle
  have htotal : (issuedIds src dst pairs layerRange).length * issuedSize src dst layerRange =
      pairs.length * ((layersOf src layerRange).len *
        (src.layout.config.outerDim * src.layout.config.regionSize)) := by
    unfold issuedIds issuedSize
    by_cases hwhole : canUseWholeBlockTransfer src dst layerRange = true
    · rw [if_pos hwhole, if_pos hwhole, length_map, hs.blockBytes, (whole_iff.mp hwhole).1]
      simp [Range.len]
    · rw [if_neg hwhole, if_neg hwhole, length_chunkIds]
      ring
  by_contra hlt
  have hregion := hs.regionSize_pos
  have hsize : 0 < issuedSize src dst layerRange := by
    unfold issuedSize
    split
    · rw [hs.blockBytes]
      exact Nat.mul_pos hs.valid.layers (Nat.mul_pos hs.valid.outer.1 hregion)
    · exact hregion
  rw [← htotal] at hle
  have := Nat.le_of_mul_le_mul_right hle hsize
  omega

omit hd' hsame in
theorem issuedIds_layer {c : (Nat × Nat) × Nat × Nat}
    (hc : c ∈ issuedIds src dst pairs layerRange) :
    c.1 ∈ pairs ∧ (layersOf src layerRange).contains c.2.1 = true := by
  unfold issuedIds at hc
  split at hc
  next hwhole =>
    obtain ⟨pair, hpair, rfl⟩ := mem_map.mp hc
    rw [(whole_iff.mp hwhole).1, contains_iff]
    exact ⟨hpair, Nat.zero_le _, hs.valid.layers⟩
  next =>
    obtain ⟨hpair, hlayer, -⟩ := mem_chunkIds.mp hc
    exact ⟨hpair, hlayer⟩

/-- **When the copies that are issued are those that were selected.** -/
theorem Issues.exact_iff (h : Issues src dst pairs layerRange count ops)
    (hdistinct : (pairs.map Prod.snd).Nodup)
    (hslices : slices = [] ∨ (issuedIds src dst pairs layerRange).length ≤ count) :
    Exact src.layout dst.layout pairs (layersOf src layerRange) slices ops ↔
      pairs = [] ∨ (layersOf src layerRange).len = 0 ∨
        (Inert pairs (layersOf src layerRange) src.layout.config nh hd slices ∧
          (src.layout.blockLayout ≠ .universal ∨
            layersOf src layerRange = ⟨0, src.layout.config.numLayers⟩ ∨ nh = 1) ∧
          (issuedIds src dst pairs layerRange).length ≤ count) := by
  constructor
  · intro hexact
    by_cases hne : pairs = []
    · exact .inl hne
    by_cases hlen : (layersOf src layerRange).len = 0
    · exact .inr (.inl hlen)
    have hcount : (issuedIds src dst pairs layerRange).length ≤ count := by
      cases hslices with
      | inl hnil =>
        rw [hnil] at hexact
        exact hexact.all_copied hs hd' hsame hdistinct h hne hlen
      | inr hle => exact hle
    have hlayers := hexact.layers_whole hs hd' hsame h hcount hne hlen
    have hinert := hexact.inert hs hd' hsame
      (fun p hp => (issued_bytes hs hd' hsame h hcount hlayers p).mpr hp)
      (h.inRange hs hne hlen hd') hne hlen
    exact .inr (.inr ⟨hinert, hlayers, hcount⟩)
  · intro hcond p
    by_cases hempty : pairs = [] ∨ (layersOf src layerRange).len = 0
    · have hnone : ∀ pair ∈ pairs, ∀ i, (layersOf src layerRange).contains i = true → False := by
        intro pair hpair i hi
        rw [contains_iff] at hi
        cases hempty with
        | inl hnil =>
          rw [hnil] at hpair
          cases hpair
        | inr hlen =>
          unfold Range.len at hlen
          omega
      constructor
      · intro hp
        rw [h.bytes, flatMap_map, mem_flatMap] at hp
        obtain ⟨c, hc, -⟩ := hp
        obtain ⟨hpair, hi⟩ := issuedIds_layer hs (mem_of_mem_take hc)
        exact (hnone c.1 hpair c.2.1 hi).elim
      · intro ⟨_, _, _, _, _, _, _, hsel, _⟩
        obtain ⟨pair, hpair, -⟩ := hsel.block
        obtain ⟨i, -, hi⟩ := hsel.layer
        exact (hnone pair hpair i hi).elim
    · obtain ⟨hinert, hlayers, hcount⟩ := by
        simpa [not_or.mp hempty] using hcond
      have hin := h.inRange hs (not_or.mp hempty).1 (not_or.mp hempty).2 hd'
      rw [issued_bytes hs hd' hsame h hcount (by simpa using hlayers),
        selected_iff hs hd' hsame hinert hin]

end Placed

end Copies

/-! ### Every route without the planner -/

/-- The number of copies of a transfer of `n` pairs of blocks. -/
def copyCount (src dst : PhysicalLayout) (layerRange : Option Range) (n : Nat) : Nat :=
  if canUseWholeBlockTransfer src dst layerRange then n
  else n * ((layersOf src layerRange).len * src.layout.config.outerDim)

variable {src dst : PhysicalLayout}

/-- The kernel's counter is the only reason to make fewer copies than there are. -/
theorem le_issuedCount {o : TransferOptions} {strategy : TransferStrategy} {total : Nat} :
    total ≤ issuedCount src dst o strategy total ↔
      (strategy.isCudaFamily = true → usesKernel src dst o.layerRange o.copyEngine = true →
        total < 2 ^ 32) := by
  unfold issuedCount launchCount
  split
  next hcuda =>
    split
    next hkernel =>
      have hlt := Nat.mod_lt total (Nat.two_pow_pos 32)
      constructor
      · intro hle _ _
        omega
      · intro hsmall
        rw [Nat.mod_eq_of_lt (hsmall hcuda hkernel)]
    next hkernel => simp [hkernel]
  next hcuda => simp [hcuda]

/-- **A transfer that does not go to the planner moves exactly the selected elements if and only
if nothing is asked for, or the slices leave nothing out, the layers are regions, and the kernel
can count the copies.** -/
theorem executeTransfer_exact_iff {debug : Bool} {caps : TransferCapabilities}
    {src dst : PhysicalLayout} {srcBlockIds dstBlockIds : List Nat} {o : TransferOptions}
    {nh hd : Nat} {ops : List CopyOp} {strategy : TransferStrategy}
    (hsrc : Built nh hd src.layout) (hdst : Built nh hd dst.layout)
    (hsame : SameExtents src.layout.config dst.layout.config) (hdistinct : dstBlockIds.Nodup)
    (hstrategy : selectStrategy caps src.location dst.location = .ok (.direct strategy))
    (hrun : executeTransfer debug caps src dst srcBlockIds dstBlockIds o = .ok (.copies ops)) :
    Exact src.layout dst.layout (srcBlockIds.zip dstBlockIds) (layersOf src o.layerRange)
        o.axisSlices ops ↔
      srcBlockIds = [] ∨ (layersOf src o.layerRange).len = 0 ∨
        (Inert (srcBlockIds.zip dstBlockIds) (layersOf src o.layerRange) src.layout.config nh hd
            o.axisSlices ∧
          (src.layout.blockLayout ≠ .universal ∨
            layersOf src o.layerRange = ⟨0, src.layout.config.numLayers⟩ ∨ nh = 1) ∧
          (strategy.isCudaFamily = true →
            usesKernel src dst o.layerRange o.copyEngine = true →
            copyCount src dst o.layerRange srcBlockIds.length < 2 ^ 32)) := by
  obtain ⟨byteAt, hs⟩ := hsrc.placed
  obtain ⟨byteAt', hd'⟩ := hdst.placed
  obtain ⟨strategy', hstrategy', hissues, hslices, hlength⟩ := executeTransfer_issues hs hrun
  obtain rfl : strategy = strategy' := by simpa [hstrategy] using hstrategy'
  have hsnd : (srcBlockIds.zip dstBlockIds).map Prod.snd = dstBlockIds :=
    map_snd_zip (Nat.le_of_eq hlength.symm)
  have hzip : (srcBlockIds.zip dstBlockIds).length = srcBlockIds.length := by
    rw [length_zip, hlength, Nat.min_self]
  have hempty : srcBlockIds.zip dstBlockIds = [] ↔ srcBlockIds = [] := by
    rw [← length_eq_zero_iff, hzip, length_eq_zero_iff]
  have hcopies : (issuedIds src dst (srcBlockIds.zip dstBlockIds) o.layerRange).length =
      copyCount src dst o.layerRange srcBlockIds.length := by
    rw [← hzip, issuedIds, copyCount]
    split
    · rw [length_map]
    · rw [length_chunkIds]
  have hcount : o.axisSlices = [] ∨
      (issuedIds src dst (srcBlockIds.zip dstBlockIds) o.layerRange).length ≤
        issuedCount src dst o strategy
          (issuedIds src dst (srcBlockIds.zip dstBlockIds) o.layerRange).length := by
    by_cases hnil : o.axisSlices = []
    · exact .inl hnil
    · exact .inr (le_issuedCount.mpr fun hcuda => by simp [hslices hnil] at hcuda)
  rw [hissues.exact_iff hs hd' hsame (by rwa [hsnd]) hcount, le_issuedCount, hcopies, hempty]

/-- Two blocks of two layers in host memory, with one token, two heads and a head size of one. -/
def hostBlocks (order : KvBlockLayout) (base : Nat) : FullyContiguousLayout where
  config := ⟨2, 2, 1, 1, 2, 1, some 2⟩
  baseAddr := base
  memorySize := 8
  kvBlockLayout := order
  valid := ⟨by decide, by decide, by decide, ⟨0, rfl⟩, by decide, by decide⟩
  fits := by decide

def hostMemory (order : KvBlockLayout) (base : Nat) : PhysicalLayout where
  layout := (hostBlocks order base).toLayout
  location := ⟨.pinned, true⟩
  identity := base
  provider := none

theorem hostMemory_built {order : KvBlockLayout} {base : Nat}
    (h : Contiguous.Ordered (hostBlocks order base)) : Built 2 1 (hostMemory order base).layout :=
  .contiguous _ (by simp [resolveHeadDims, hostBlocks]) h

/-- The second layer of block `0` is copied to block `1`. -/
theorem executeTransfer_exact_iff_secondLayer :
    executeTransfer true ⟨false, false, false⟩ (hostMemory .operationalNHD 100)
        (hostMemory .operationalNHD 500) [0] [1] ⟨some ⟨1, 2⟩, false, .auto, false, []⟩ =
      .ok (.copies [⟨102, 506, 2⟩]) ∧
    Exact (hostMemory .operationalNHD 100).layout (hostMemory .operationalNHD 500).layout [(0, 1)]
      ⟨1, 2⟩ [] [⟨102, 506, 2⟩] := by
  refine ⟨rfl, (@executeTransfer_exact_iff true ⟨false, false, false⟩
    (hostMemory .operationalNHD 100) (hostMemory .operationalNHD 500) [0] [1]
    ⟨some ⟨1, 2⟩, false, .auto, false, []⟩ 2 1 _ .memcpy (hostMemory_built (.inl rfl))
    (hostMemory_built (.inl rfl)) ⟨rfl, rfl, rfl, rfl⟩ (by decide) rfl rfl).mpr
    (.inr (.inr ?_))⟩
  exact ⟨by simp [Inert], .inl (by decide), by simp [TransferStrategy.isCudaFamily]⟩

/-- The CPU route copies both heads although a slice asks for one, and for one layer of a
universal layout it copies the first head of both layers. -/
theorem hostCopies_not_exact :
    (executeTransfer true ⟨false, false, false⟩ (hostMemory .operationalNHD 100)
        (hostMemory .operationalNHD 500) [0] [1]
        ⟨none, false, .auto, true, [⟨.headCount, ⟨0, 1⟩, ⟨0, 1⟩⟩]⟩ =
      .ok (.copies [⟨100, 504, 4⟩]) ∧
    ¬Exact (hostMemory .operationalNHD 100).layout (hostMemory .operationalNHD 500).layout
      [(0, 1)] ⟨0, 2⟩ [⟨.headCount, ⟨0, 1⟩, ⟨0, 1⟩⟩] [⟨100, 504, 4⟩]) ∧
    executeTransfer true ⟨false, false, false⟩ (hostMemory .universal 100)
        (hostMemory .universal 500) [0] [1] ⟨some ⟨0, 1⟩, false, .auto, false, []⟩ =
      .ok (.copies [⟨100, 504, 2⟩]) ∧
    ¬Exact (hostMemory .universal 100).layout (hostMemory .universal 500).layout [(0, 1)]
      ⟨0, 1⟩ [] [⟨100, 504, 2⟩] := by
  refine ⟨⟨rfl, fun hexact => ?_⟩, rfl, fun hexact => ?_⟩
  · obtain ⟨byteAt, hs⟩ := (@hostMemory_built .operationalNHD 100 (.inl rfl)).placed
    obtain ⟨byteAt', hd'⟩ := (@hostMemory_built .operationalNHD 500 (.inl rfl)).placed
    obtain ⟨_, -, hissues, hcuda, -⟩ := @executeTransfer_issues _ (hostMemory .operationalNHD 500)
      _ true ⟨false, false, false⟩ [0] [1]
      ⟨none, false, .auto, true, [⟨.headCount, ⟨0, 1⟩, ⟨0, 1⟩⟩]⟩ _ _ _ hs rfl
    have hcuda := hcuda (by simp)
    obtain h | h | ⟨hinert, -⟩ :=
      (hissues.exact_iff hs hd' ⟨rfl, rfl, rfl, rfl⟩ (by decide)
        (.inr (le_issuedCount.mpr fun h => absurd (hcuda.symm.trans h) (by decide)))).mp hexact
    · cases h
    · cases h
    · exact absurd (hinert _ (mem_singleton.mpr rfl) 1 1 ⟨rfl, by decide⟩)
        (by simp [Admits, Range.contains])
  · obtain ⟨byteAt, hs⟩ := (@hostMemory_built .universal 100 (.inr (.inr rfl))).placed
    obtain ⟨byteAt', hd'⟩ := (@hostMemory_built .universal 500 (.inr (.inr rfl))).placed
    obtain ⟨_, -, hissues, -, -⟩ := @executeTransfer_issues _ (hostMemory .universal 500)
      _ true ⟨false, false, false⟩ [0] [1] ⟨some ⟨0, 1⟩, false, .auto, false, []⟩ _ _ _ hs rfl
    obtain h | h | ⟨-, h | h | h, -⟩ :=
      (hissues.exact_iff hs hd' ⟨rfl, rfl, rfl, rfl⟩ (by decide) (.inl rfl)).mp hexact
    · cases h
    · cases h
    · exact h rfl
    · cases h
    · cases h

def ByteOf (l : Layout) (block : Nat) (x : Label) (byte : Nat) : Prop :=
  ∃ addr k, AddrAt l block x addr ∧ k < l.config.dtypeWidthBytes ∧ addr + k = byte

/-- **View and regions agree**: every label that fits has an address, no two elements share a byte,
and a region has the bytes of its layer and outer index. -/
theorem Built.addresses {l : Layout} {nh hd : Nat} (h : Built nh hd l) :
    (∀ block x, (∃ addr, AddrAt l block x addr) ↔
      block < l.config.numBlocks ∧ x.Fits l.config nh hd) ∧
    (∀ block block' x x' byte, ByteOf l block x byte → ByteOf l block' x' byte →
      block = block' ∧ x = x') ∧
    (l.blockLayout ≠ .universal → ∀ block layer outer r, l.memoryRegion block layer outer = .ok r →
      ∀ byte, r.addr ≤ byte ∧ byte < r.addr + r.size ↔
        ∃ x, x.layer = layer ∧ x.outer = outer ∧ ByteOf l block x byte) := by
  obtain ⟨byteAt, hp⟩ := h.placed
  refine ⟨by simp [hp.view], ?_, fun horder block layer outer r hr byte => ?_⟩
  · rintro block block' x x' byte ⟨_, k, hx, hk, heq⟩ ⟨_, k', hx', hk', heq'⟩
    obtain ⟨hb, hf, rfl⟩ := (hp.view _ _ _).mp hx
    obtain ⟨hb', hf', rfl⟩ := (hp.view _ _ _).mp hx'
    rw [← hp.byte] at heq heq'
    exact (hp.inj hb hf hk hb' hf' hk' (heq.trans heq'.symm)).imp_right And.left
  · obtain ⟨hb, hl, ho, hsize⟩ := hp.inRange _ _ _ _ hr
    rw [hsize]
    constructor
    · rintro ⟨hle, hlt⟩
      obtain ⟨x, k, hf, rfl, rfl, hk, hplace⟩ :=
        exists_regionLabel hp.heads hl ho (Nat.sub_lt_left_of_lt_add hle hlt)
      refine ⟨x, rfl, rfl, _, k, (hp.view _ _ _).mpr ⟨hb, hf, rfl⟩, hk, ?_⟩
      rw [← hp.byte, hp.region (.inl horder) _ _ _ _ hf hr, hplace]
      exact Nat.add_sub_of_le hle
    · rintro ⟨x, rfl, rfl, _, k, hx, hk, rfl⟩
      obtain ⟨-, hf, rfl⟩ := (hp.view _ _ _).mp hx
      have hlt := place_lt (within_indexOf ((@along_regionDims _ _ _ l.blockLayout 0 x).mpr
        ⟨hf.page, hf.head, hf.elem⟩) hk)
      rw [span_regionDims hp.heads] at hlt
      rw [← hp.byte, hp.region (.inl horder) _ _ _ _ hf hr]
      omega

theorem Built.addresses_second :
    ∃ x, x.layer = 0 ∧ x.outer = 0 ∧ ByteOf (hostMemory .operationalNHD 100).layout 1 x 105 :=
  ((hostMemory_built (.inl rfl)).addresses.2.2 (by decide) 1 0 0 ⟨104, 2⟩ rfl 105).mp (by decide)

end Kvbm.Transfer
