/-
The two addressing schemes agree.

A layout addresses a byte by its label, through the labelled view, and by its region.  In both the
byte lies at a place in row-major order: the view lists the axes of the block layout, and a region
is what the axes inside of the outer one span.  The universal layout has the heads outside of the
layers, so that its regions mean something only when there is one head.
-/
import Kvbm.Layout.Physical
import Kvbm.Lib.Outcome
import Kvbm.Lib.Place
import Mathlib.Algebra.BigOperators.Ring.List
import Mathlib.Tactic.Ring

namespace Kvbm

open Lib LayoutView
open List hiding span

/-! ### Row-major views -/

/-- Axes whose elements of `width` bytes lie in row-major order. -/
def rowMajor (width : Nat) : List (KvDim × Nat) → List Axis
  | [] => []
  | d :: rest => ⟨d.1, d.2, width * (rest.map Prod.snd).prod⟩ :: rowMajor width rest

section RowMajor

variable {dims : List (KvDim × Nat)}

theorem rowMajor_dims (width : Nat) : (rowMajor width dims).map Axis.dim = dims.map Prod.fst := by
  induction dims with
  | nil => rfl
  | cons d rest ih => simp [rowMajor, ih]

theorem rowMajor_sizes {width : Nat} : (rowMajor width dims).map Axis.size = dims.map Prod.snd := by
  induction dims with
  | nil => rfl
  | cons d rest ih => simp [rowMajor, ih]

variable {width : Nat}

theorem rowMajor_stride_pos (hwidth : 0 < width) (hpos : 0 ∉ dims.map Prod.snd) :
    0 ∉ (rowMajor width dims).map Axis.stride := by
  induction dims with
  | nil => simp [rowMajor]
  | cons d rest ih =>
    rw [map_cons, mem_cons, not_or] at hpos
    have hprod : (rest.map Prod.snd).prod ≠ 0 := prod_ne_zero hpos.2
    simp only [rowMajor, map_cons, mem_cons, not_or]
    refine ⟨fun h0 => ?_, ih hpos.2⟩
    cases Nat.mul_eq_zero.mp h0.symm with
    | inl => omega
    | inr h => exact hprod h

/-- The strides times the coordinates count the bytes before the element. -/
theorem rowMajor_sum (f : KvDim → Nat) :
    ((rowMajor width dims).map fun a => a.stride * f a.dim).sum =
      place (dims.map (fun d => (d.2, f d.1)) ++ [(width, 0)]) := by
  induction dims with
  | nil => simp [rowMajor, place]
  | cons d rest ih =>
    have hspan : span (rest.map (fun d => (d.2, f d.1)) ++ [(width, 0)]) =
        (rest.map Prod.snd).prod * width := by
      rw [span_append]
      simp [span, map_map, Function.comp_def]
    simp only [rowMajor, map_cons, sum_cons, cons_append, place, ih, hspan]
    ring

theorem rowMajor_within {f : KvDim → Nat} :
    (∀ a ∈ rowMajor width dims, f a.dim < a.size) ↔ ∀ d ∈ dims, f d.1 < d.2 := by
  induction dims with
  | nil => simp [rowMajor]
  | cons d rest ih => simp [rowMajor, ih]

/-- The labels are distinct, the block is among them and there is no payload axis. -/
structure Labelled (dims : List (KvDim × Nat)) : Prop where
  nodup : (dims.map Prod.fst).Nodup
  block : .block ∈ dims.map Prod.fst
  payload : .payload ∉ dims.map Prod.fst

/-- Axes in row-major order are those of a view. -/
theorem viewOf_rowMajor (regions : List Nat) (regionAxis : Option KvDim) (hlabels : Labelled dims)
    (hsize : 0 ∉ dims.map Prod.snd) (hwidth : 0 < width)
    (houter : ∀ n ∈ sizeAt (dims.map Prod.fst) (dims.map Prod.snd) .outer, 1 ≤ n ∧ n ≤ 2)
    (hfit : ∀ l : KvDimLayout, l.dims = dims.map Prod.fst → l.sizes = dims.map Prod.snd →
      RegionsFit regions regionAxis l) :
    ∃ v, viewOf (rowMajor width dims) width regions regionAxis = .ok v ∧
      axesOf v.localLayout v.byteStrides = rowMajor width dims ∧ v.regions = regions ∧
      v.regionAxis = regionAxis ∧ v.slices = [] := by
  have hne : dims ≠ [] := by
    intro h
    have := hlabels.block
    simp [h] at this
  have hle : ∀ d, (dims.map Prod.fst).count d ≤ 1 := nodup_iff_count_le_one.mp hlabels.nodup
  have hnone : (dims.map Prod.fst).count .payload = 0 := count_eq_zero.mpr hlabels.payload
  obtain ⟨l, hl, hdims, hsizes⟩ : ∃ l,
      KvDimLayout.new (dims.map Prod.fst) (dims.map Prod.snd) = .ok l ∧
        l.dims = dims.map Prod.fst ∧ l.sizes = dims.map Prod.snd := by
    unfold KvDimLayout.new
    rw [dif_neg (by simpa using hne), dif_neg (by simp), dif_neg hsize,
      dif_neg (by simpa using count_eq_one_of_mem hlabels.nodup hlabels.block),
      dif_neg (by simp [hle]), dif_neg (by simp [hle]), dif_neg (by simp [hle]),
      dif_neg (by simp [hle]), dif_neg (by have := hle .headSize; omega),
      dif_neg (by simp [hnone]),
      dif_neg (by
        intro ⟨n, hn, hbad⟩
        exact hbad (houter n hn))]
    exact ⟨_, rfl, rfl, rfl⟩
  obtain ⟨s, hs, hbytes⟩ : ∃ s,
      KvDimStrides.fromByteStrides ((rowMajor width dims).map Axis.stride) width = .ok s ∧
        s.bytes = (rowMajor width dims).map Axis.stride := by
    unfold KvDimStrides.fromByteStrides
    have hlen := congrArg length (@rowMajor_dims dims width)
    rw [dif_neg (by
        intro h
        rw [map_eq_nil_iff.mp h] at hlen
        exact hne (length_eq_zero_iff.mp (by simpa using hlen.symm))),
      dif_neg (by omega), dif_neg (rowMajor_stride_pos hwidth hsize)]
    exact ⟨_, rfl, rfl⟩
  obtain ⟨v, hv, rfl, rfl, hreg⟩ : ∃ v, full l s regions regionAxis = .ok v ∧ v.localLayout = l ∧
      v.byteStrides = s ∧ v.regions = regions ∧ v.regionAxis = regionAxis ∧ v.slices = [] := by
    have hrank : s.bytes.length = l.dims.length := by
      rw [hbytes, hdims, ← rowMajor_dims width]
      simp
    unfold full
    rw [dif_neg (by simpa using hrank), dif_pos (hfit l hdims hsizes)]
    exact ⟨_, rfl, rfl, rfl, rfl, rfl, rfl⟩
  refine ⟨v, ?_, ?_, hreg⟩
  · unfold viewOf
    rw [rowMajor_dims, rowMajor_sizes, hl, Except.bind, hs, Except.bind, hv]
  · unfold axesOf
    rw [hdims, hsizes, hbytes, ← rowMajor_dims width, ← rowMajor_sizes,
      zip_map', zipWith_map, zipWith_self]
    simp

end RowMajor

/-- The axes other than the region axis add their stride times their coordinate. -/
theorem LayoutView.offset_eq_ok {v : LayoutView} {coord : CoordByLabel} {f : KvDim → Nat}
    {axes : List Axis} {o : Nat} (hslices : v.slices = [])
    (hf : ∀ a ∈ axes, coord a.dim = some (f a.dim)) :
    v.offset coord axes = .ok o ↔
      (∀ a ∈ axes.filter (some ·.dim ≠ v.regionAxis), f a.dim < a.size) ∧
        ((axes.filter (some ·.dim ≠ v.regionAxis)).map fun a => a.stride * f a.dim).sum = o := by
  induction axes generalizing o with
  | nil => simp [offset]
  | cons a rest ih =>
    have hrest := fun {o} => @ih o fun b hb => hf b (by simp [hb])
    have hstart : v.sliceStart a.dim = 0 := by simp [sliceStart, hslices]
    rw [offset]
    by_cases hregion : some a.dim = v.regionAxis
    · rw [if_pos hregion, hrest, filter_cons_of_neg (by simpa using hregion)]
    rw [if_neg hregion, filter_cons_of_pos (by simpa using hregion)]
    simp only [hf a (by simp), hstart, Nat.zero_add, forall_mem_cons, map_cons, sum_cons]
    split
    next h => simp [Nat.not_lt.mpr h]
    next h =>
      rw [map_eq_ok]
      constructor
      · intro ⟨o', ho', he⟩
        obtain ⟨hall, hsum⟩ := hrest.mp ho'
        exact ⟨⟨Nat.lt_of_not_le h, hall⟩, by rw [hsum, he]⟩
      · intro ⟨⟨_, hall⟩, he⟩
        exact ⟨_, hrest.mpr ⟨hall, rfl⟩, he⟩

namespace Transfer

/-! ### Labels -/

/-- The label of an element, but for its block. -/
structure Label where
  layer : Nat
  outer : Nat
  page : Nat
  head : Nat
  elem : Nat
  deriving DecidableEq, Repr

def coordOf (block : Nat) (x : Label) : CoordByLabel
  | .block => some block
  | .layer => some x.layer
  | .outer => some x.outer
  | .page => some x.page
  | .headCount => some x.head
  | .headSize => some x.elem
  | .payload => none

/-- The coordinate of an axis; there is no payload axis. -/
def Label.along (block : Nat) (x : Label) (d : KvDim) : Nat := (coordOf block x d).getD 0

theorem coordOf_eq {block : Nat} {x : Label} {d : KvDim} (h : d ≠ .payload) :
    coordOf block x d = some (x.along block d) := by
  cases d <;> first | rfl | contradiction

/-- The view assigns an address to a label. -/
def AddrAt (l : Layout) (block : Nat) (x : Label) (addr : Nat) : Prop :=
  ∃ v, l.layoutView = .ok v ∧ v.addrOf (coordOf block x) = .ok addr

variable {l : Layout}

theorem addrAt_iff {v : LayoutView} {block : Nat} {x : Label} {addr : Nat}
    (hview : l.layoutView = .ok v) :
    AddrAt l block x addr ↔ v.addrOf (coordOf block x) = .ok addr := by
  constructor
  · intro ⟨v', hv', h⟩
    obtain rfl : v = v' := Except.ok.inj (hview.symm.trans hv')
    exact h
  · intro h
    exact ⟨v, hview, h⟩

variable {cfg : LayoutConfig} {nh hd : Nat}

/-- The label lies within the tensor. -/
structure Label.Fits (x : Label) (cfg : LayoutConfig) (nh hd : Nat) : Prop where
  layer : x.layer < cfg.numLayers
  outer : x.outer < cfg.outerDim
  page : x.page < cfg.pageSize
  head : x.head < nh
  elem : x.elem < hd

def regionDims (order : KvBlockLayout) (cfg : LayoutConfig) (nh hd : Nat) : List (KvDim × Nat) :=
  match order with
  | .operationalHND => [(.headCount, nh), (.page, cfg.pageSize), (.headSize, hd)]
  | _ => [(.page, cfg.pageSize), (.headCount, nh), (.headSize, hd)]

def blockDims (order : KvBlockLayout) (cfg : LayoutConfig) (nh hd : Nat) : List (KvDim × Nat) :=
  match order with
  | .universal => [(.headCount, nh), (.layer, cfg.numLayers), (.outer, cfg.outerDim),
      (.page, cfg.pageSize), (.headSize, hd)]
  | order => (.layer, cfg.numLayers) :: (.outer, cfg.outerDim) :: regionDims order cfg nh hd

/-- The coordinates of a byte of an element, outermost first. -/
def indexOf (width : Nat) (dims : List (KvDim × Nat)) (block : Nat) (x : Label) (k : Nat) :
    List (Nat × Nat) :=
  dims.map (fun d => (d.2, x.along block d.1)) ++ [(width, k)]

variable {dims : List (KvDim × Nat)} {order : KvBlockLayout} {width block k : Nat} {x : Label}

theorem place_indexOf : place (indexOf width dims block x k) =
    place (indexOf width dims block x 0) + k := by
  simp [indexOf, place_append, place]

theorem indexOf_cons {d : KvDim × Nat} : indexOf width (d :: dims) block x k =
    (d.2, x.along block d.1) :: indexOf width dims block x k := rfl

theorem regionIndex_block : indexOf width (regionDims order cfg nh hd) block x k =
    indexOf width (regionDims order cfg nh hd) 0 x k := by
  unfold regionDims
  split <;> rfl

theorem blockIndex_block : indexOf width (blockDims order cfg nh hd) block x k =
    indexOf width (blockDims order cfg nh hd) 0 x k := by
  unfold blockDims
  split
  · rfl
  · rw [indexOf_cons, indexOf_cons, regionIndex_block]
    rfl

/-- Whatever the block layout, these are the axes of a region. -/
theorem regionDims_perm : (regionDims order cfg nh hd).Perm
    [(.page, cfg.pageSize), (.headCount, nh), (.headSize, hd)] := by
  unfold regionDims
  split
  · exact .swap _ _ _
  · exact .refl _

theorem blockDims_perm : (blockDims order cfg nh hd).Perm
    [(.layer, cfg.numLayers), (.outer, cfg.outerDim), (.page, cfg.pageSize), (.headCount, nh),
      (.headSize, hd)] := by
  unfold blockDims
  split
  · exact (@List.perm_middle _ _ [_, _, _] _).symm
  · exact (regionDims_perm.cons _).cons _

theorem span_indexOf : span (indexOf width dims block x k) = (dims.map Prod.snd).prod * width := by
  rw [indexOf, span_append]
  simp [span, map_map, Function.comp_def]

section

variable (hinner : cfg.innerDim = nh * hd)

include hinner

theorem prod_regionDims :
    ((regionDims order cfg nh hd).map Prod.snd).prod * cfg.dtypeWidthBytes = cfg.regionSize := by
  rw [(regionDims_perm.map Prod.snd).prod_eq]
  simp [LayoutConfig.regionSize, hinner, Nat.mul_assoc]

theorem span_regionDims :
    span (indexOf cfg.dtypeWidthBytes (regionDims order cfg nh hd) block x k) = cfg.regionSize := by
  rw [span_indexOf, prod_regionDims hinner]

theorem prod_blockDims :
    ((blockDims order cfg nh hd).map Prod.snd).prod * cfg.dtypeWidthBytes =
      cfg.numLayers * (cfg.outerDim * cfg.regionSize) := by
  rw [(blockDims_perm.map Prod.snd).prod_eq]
  simp [LayoutConfig.regionSize, hinner, Nat.mul_assoc]

/-- Within a block the layer is the outermost axis, unless there are heads around it. -/
theorem place_blockDims (hx : x.Fits cfg nh hd) (hone : order ≠ .universal ∨ nh = 1) :
    place (indexOf cfg.dtypeWidthBytes (blockDims order cfg nh hd) block x k) =
      (x.layer * cfg.outerDim + x.outer) * cfg.regionSize +
        place (indexOf cfg.dtypeWidthBytes (regionDims order cfg nh hd) block x k) := by
  unfold blockDims
  split
  next =>
    obtain rfl : nh = 1 := hone.resolve_left (by simp)
    have hhead : x.head = 0 := by
      have := hx.head
      omega
    simp only [indexOf, regionDims, Label.along, coordOf, map_cons, map_nil,
      cons_append, nil_append, place, span_cons, span_nil, Option.getD_some,
      LayoutConfig.regionSize, hinner, hhead]
    ring
  next =>
    simp only [indexOf_cons, place, span_cons, span_regionDims hinner, Label.along, coordOf,
      Option.getD_some]
    ring

omit hinner in
/-- Every place belongs to a label; the axes that are not listed may be chosen. -/
theorem exists_label {j : Nat} (x0 : Label) (hnd : (dims.map Prod.fst).Nodup)
    (hblock : .block ∉ dims.map Prod.fst) (hpayload : .payload ∉ dims.map Prod.fst)
    (hj : j < (dims.map Prod.snd).prod * width) :
    ∃ (x : Label) (k : Nat), (∀ d ∈ dims, x.along block d.1 < d.2) ∧
      (∀ d ∉ dims.map Prod.fst, x.along block d = x0.along block d) ∧ k < width ∧
      place (indexOf width dims block x k) = j := by
  have hwidth : 0 < width := Nat.pos_of_mul_pos_left (Nat.lt_of_le_of_lt (Nat.zero_le _) hj)
  obtain ⟨f, hf, hplace⟩ := exists_place hnd (Nat.div_lt_of_lt_mul (by rwa [Nat.mul_comm] at hj))
  let g : KvDim → Nat := fun d => if d ∈ dims.map Prod.fst then f d else x0.along block d
  let x : Label := ⟨g .layer, g .outer, g .page, g .headCount, g .headSize⟩
  have hg : ∀ d, x.along block d = g d := by
    intro d
    cases d with
    | block => exact (if_neg hblock).symm
    | payload => exact (if_neg hpayload).symm
    | layer | outer | page | headCount | headSize => rfl
  have hlisted : ∀ d ∈ dims, x.along block d.1 = f d.1 := fun d hd =>
    (hg d.1).trans (if_pos (mem_map_of_mem hd))
  refine ⟨x, j % width, fun d hd => ?_, fun d hd => ?_, Nat.mod_lt j hwidth, ?_⟩
  · rw [hlisted d hd]
    exact hf d hd
  · exact (hg d).trans (if_neg hd)
  · have hmap : (dims.map fun d => (d.2, x.along block d.1)) = dims.map fun d => (d.2, f d.1) :=
      map_congr_left fun d hd => by rw [hlisted d hd]
    rw [indexOf, place_append, hmap, hplace]
    simpa [place] using Nat.div_add_mod' j width

omit hinner in
theorem along_regionDims : (∀ d ∈ regionDims order cfg nh hd, x.along block d.1 < d.2) ↔
      x.page < cfg.pageSize ∧ x.head < nh ∧ x.elem < hd := by
  simp [regionDims_perm.mem_iff, Label.along, coordOf]

omit hinner in
theorem along_blockDims :
    (∀ d ∈ blockDims order cfg nh hd, x.along block d.1 < d.2) ↔ x.Fits cfg nh hd := by
  simp only [blockDims_perm.mem_iff, forall_mem_cons]
  exact ⟨fun ⟨hl, ho, hp, hh, he, _⟩ => ⟨hl, ho, hp, hh, he⟩,
    fun ⟨hl, ho, hp, hh, he⟩ => ⟨hl, ho, hp, hh, he, nofun⟩⟩

theorem exists_regionLabel {layer outer j : Nat} (hlayer : layer < cfg.numLayers)
    (houter : outer < cfg.outerDim) (hj : j < cfg.regionSize) :
    ∃ (x : Label) (k : Nat), x.Fits cfg nh hd ∧ x.layer = layer ∧ x.outer = outer ∧
      k < cfg.dtypeWidthBytes ∧
      place (indexOf cfg.dtypeWidthBytes (regionDims order cfg nh hd) 0 x k) = j := by
  have hdims := (@regionDims_perm cfg nh hd order).map Prod.fst
  obtain ⟨x, k, hin, hkeep, hk, hplace⟩ := exists_label ⟨layer, outer, 0, 0, 0⟩
    (hdims.nodup_iff.mpr (by simp)) (by simp [hdims.mem_iff]) (by simp [hdims.mem_iff])
    (prod_regionDims hinner ▸ hj)
  have hl : x.layer = layer := hkeep .layer (by simp [hdims.mem_iff])
  have ho : x.outer = outer := hkeep .outer (by simp [hdims.mem_iff])
  obtain ⟨hpage, hhead, helem⟩ := along_regionDims.mp hin
  exact ⟨x, k, ⟨hl ▸ hlayer, ho ▸ houter, hpage, hhead, helem⟩, hl, ho, hk, hplace⟩

theorem exists_blockLabel {j : Nat} (hj : j < cfg.numLayers * (cfg.outerDim * cfg.regionSize)) :
    ∃ (x : Label) (k : Nat), x.Fits cfg nh hd ∧ k < cfg.dtypeWidthBytes ∧
      place (indexOf cfg.dtypeWidthBytes (blockDims order cfg nh hd) 0 x k) = j := by
  have hdims := (@blockDims_perm cfg nh hd order).map Prod.fst
  obtain ⟨x, k, hin, -, hk, hplace⟩ := exists_label ⟨0, 0, 0, 0, 0⟩
    (hdims.nodup_iff.mpr (by simp)) (by simp [hdims.mem_iff]) (by simp [hdims.mem_iff])
    (prod_blockDims hinner ▸ hj)
  exact ⟨x, k, along_blockDims.mp hin, hk, hplace⟩

end

theorem within_indexOf (h : ∀ d ∈ dims, x.along block d.1 < d.2)
    (hk : k < width) : Within (indexOf width dims block x k) := by
  refine Within.append (fun a ha => ?_) (by simpa using hk)
  obtain ⟨d, hd, rfl⟩ := mem_map.mp ha
  exact h d hd

theorem indexOf_inj {block' k' : Nat} {x' : Label}
    (h : indexOf width dims block x k = indexOf width dims block' x' k') :
    (∀ d ∈ dims.map Prod.fst, x.along block d = x'.along block' d) ∧ k = k' := by
  obtain ⟨hdims, hbyte⟩ := append_inj h (by simp)
  refine ⟨fun d hd => ?_, by simpa using hbyte⟩
  obtain ⟨a, ha, rfl⟩ := mem_map.mp hd
  simpa using map_inj_left.mp hdims a ha

section RowMajor

variable {v : LayoutView} (block x) (addr : Nat)

theorem coordOf_rowMajor (hpayload : .payload ∉ dims.map Prod.fst) :
    ∀ a ∈ rowMajor width dims, coordOf block x a.dim = some (x.along block a.dim) := by
  intro a ha
  refine coordOf_eq fun hd => hpayload ?_
  rw [← rowMajor_dims width, ← hd]
  exact mem_map_of_mem ha

/-- A view over one region adds the place of the label to its base. -/
theorem addrOf_rowMajor {base : Nat} (hpayload : .payload ∉ dims.map Prod.fst)
    (haxes : axesOf v.localLayout v.byteStrides = rowMajor width dims)
    (hregions : v.regions = [base]) (hregionAxis : v.regionAxis = none) (hslices : v.slices = []) :
    v.addrOf (coordOf block x) = .ok addr ↔
      (∀ d ∈ dims, x.along block d.1 < d.2) ∧
        base + place (indexOf width dims block x 0) = addr := by
  have hbase : v.regionBase (coordOf block x) = .ok base := by
    simp [regionBase, hregionAxis, hregions]
  rw [addrOf, hbase, Except.bind, haxes, map_eq_ok]
  simp only [offset_eq_ok hslices (coordOf_rowMajor block x hpayload), hregionAxis,
    ne_eq, reduceCtorEq, not_false_eq_true, decide_true, filter_true, rowMajor_sum]
  rw [← rowMajor_within]
  constructor
  · intro ⟨o, ⟨hall, ho⟩, he⟩
    exact ⟨hall, by rw [← he, ← ho, indexOf]⟩
  · intro ⟨hall, he⟩
    exact ⟨_, ⟨hall, rfl⟩, he⟩

/-- A view with one region for each layer adds the place within the layer to that layer's base. -/
theorem addrOf_layers {layers : Nat} (hlayer : .layer ∉ dims.map Prod.fst)
    (hpayload : .payload ∉ dims.map Prod.fst)
    (haxes : axesOf v.localLayout v.byteStrides = rowMajor width ((.layer, layers) :: dims))
    (hregionAxis : v.regionAxis = some .layer) (hslices : v.slices = []) :
    v.addrOf (coordOf block x) = .ok addr ↔
      ∃ base, v.regions[x.layer]? = some base ∧ (∀ d ∈ dims, x.along block d.1 < d.2) ∧
        base + place (indexOf width dims block x 0) = addr := by
  have hfilter : (rowMajor width ((.layer, layers) :: dims)).filter (some ·.dim ≠ v.regionAxis) =
      rowMajor width dims := by
    rw [rowMajor, filter_cons_of_neg (by simp [hregionAxis])]
    refine filter_eq_self.mpr fun a ha => ?_
    simp only [hregionAxis, ne_eq, Option.some.injEq, decide_not, Bool.not_eq_true',
      decide_eq_false_iff_not]
    intro hd
    apply hlayer
    rw [← rowMajor_dims width, ← hd]
    exact mem_map_of_mem ha
  have hoffset := fun o => offset_eq_ok (o := o) hslices
    (@coordOf_rowMajor ((.layer, layers) :: dims) width block x (by simpa using hpayload))
  simp only [hfilter, rowMajor_sum, rowMajor_within] at hoffset
  rw [addrOf, haxes, bind_eq_ok]
  have hbase : ∀ base, v.regionBase (coordOf block x) = .ok base ↔
      v.regions[x.layer]? = some base := by
    intro base
    simp only [regionBase, hregionAxis, coordOf]
    cases v.regions[x.layer]? <;> simp
  simp only [hbase, map_eq_ok, hoffset]
  constructor
  · intro ⟨base, hb, o, ⟨hall, ho⟩, he⟩
    exact ⟨base, hb, hall, by rw [← he, ← ho, indexOf]⟩
  · intro ⟨base, hb, hall, he⟩
    exact ⟨base, hb, _, ⟨hall, rfl⟩, he⟩

end RowMajor

/-- Where a layout keeps the bytes of its labels, in the terms of both schemes. -/
structure Placed (l : Layout) (nh hd : Nat) (byteAt : Nat → Label → Nat → Nat) : Prop where
  /-- What the view says. -/
  view : ∀ block x addr, AddrAt l block x addr ↔
    block < l.config.numBlocks ∧ x.Fits l.config nh hd ∧ byteAt block x 0 = addr
  byte : ∀ block x k, byteAt block x k = byteAt block x 0 + k
  inj : ∀ {block block' : Nat} {x x' : Label} {k k' : Nat},
    block < l.config.numBlocks → x.Fits l.config nh hd → k < l.config.dtypeWidthBytes →
    block' < l.config.numBlocks → x'.Fits l.config nh hd → k' < l.config.dtypeWidthBytes →
    byteAt block x k = byteAt block' x' k' → block = block' ∧ x = x' ∧ k = k'
  inRange : ∀ block layer outer r, l.memoryRegion block layer outer = .ok r →
    block < l.config.numBlocks ∧ layer < l.config.numLayers ∧ outer < l.config.outerDim ∧
      r.size = l.config.regionSize
  exists_region : ∀ block layer outer, block < l.config.numBlocks →
    layer < l.config.numLayers → outer < l.config.outerDim →
    ∃ r, l.memoryRegion block layer outer = .ok r
  region : l.blockLayout ≠ .universal ∨ nh = 1 → ∀ block x r k, x.Fits l.config nh hd →
    l.memoryRegion block x.layer x.outer = .ok r →
    byteAt block x k = r.addr + place (indexOf l.config.dtypeWidthBytes
      (regionDims l.blockLayout l.config nh hd) 0 x k)
  whole : l.isFullyContiguous → ∀ block x k r, l.memoryRegion block 0 0 = .ok r →
    byteAt block x k = r.addr + place (indexOf l.config.dtypeWidthBytes
      (blockDims l.blockLayout l.config nh hd) 0 x k)
  wholeRegion : l.isFullyContiguous → ∀ block layer outer r r',
    l.memoryRegion block 0 0 = .ok r → l.memoryRegion block layer outer = .ok r' →
    r'.addr = r.addr + (layer * l.config.outerDim + outer) * l.config.regionSize
  ordered : l.blockLayout = .operationalNHD ∨ l.blockLayout = .operationalHND ∨
    l.blockLayout = .universal
  contiguous : l.blockLayout = .universal → l.isFullyContiguous
  heads : l.config.innerDim = nh * hd
  heads_pos : 0 < nh ∧ 0 < hd
  valid : l.config.Valid
  regionSizes : l.blockRegionSizes =
    replicate (l.config.numLayers * l.config.outerDim) l.config.regionSize
  blockBytes : l.bytesPerBlock = l.config.numLayers * (l.config.outerDim * l.config.regionSize)

/-! ### Both kinds of layouts -/

theorem resolveHeadDims_eq_ok (hvalid : cfg.Valid) (h : resolveHeadDims cfg = .ok (nh, hd)) :
    cfg.innerDim = nh * hd ∧ 0 < nh ∧ 0 < hd := by
  unfold resolveHeadDims at h
  split at h
  next => cases h
  next n _ =>
    obtain ⟨hdvd, h⟩ := ite_error_eq_ok.mp h
    obtain ⟨rfl, rfl⟩ : n = nh ∧ cfg.innerDim / n = hd := by simpa using h
    have hmul : cfg.innerDim = n * (cfg.innerDim / n) :=
      (Nat.mul_div_cancel' (Decidable.not_not.mp hdvd)).symm
    have hinner := hvalid.inner
    refine ⟨hmul, Nat.pos_of_ne_zero fun h0 => ?_, Nat.pos_of_ne_zero fun h0 => ?_⟩
    · rw [h0, Nat.zero_mul] at hmul
      omega
    · rw [h0, Nat.mul_zero] at hmul
      omega

theorem checkIds_eq_none {block layer outer : Nat} :
    checkIds cfg block layer outer = none ↔
      block < cfg.numBlocks ∧ layer < cfg.numLayers ∧ outer < cfg.outerDim := by
  unfold checkIds
  split
  next h => simp [Nat.not_lt.mpr h]
  next h =>
    split
    next h' => simp [Nat.not_lt.mpr h']
    next h' =>
      split
      next h'' => simp [Nat.not_lt.mpr h'']
      next h'' => simp [Nat.lt_of_not_le h, Nat.lt_of_not_le h', Nat.lt_of_not_le h'']

theorem pageSize_pos (hvalid : cfg.Valid) : 0 < cfg.pageSize := by
  obtain ⟨k, hk⟩ := hvalid.page
  rw [hk]
  exact Nat.two_pow_pos k

theorem dtypeWidth_pos (hvalid : cfg.Valid) : 0 < cfg.dtypeWidthBytes := by
  have := hvalid.width
  omega

/-- The axes of all blocks, in some order. -/
def AllAxes (cfg : LayoutConfig) (nh hd : Nat) (dims : List (KvDim × Nat)) : Prop :=
  dims.Perm [(.block, cfg.numBlocks), (.layer, cfg.numLayers), (.outer, cfg.outerDim),
    (.page, cfg.pageSize), (.headCount, nh), (.headSize, hd)]

namespace AllAxes

variable (h : AllAxes cfg nh hd dims)

include h

theorem labelled : Labelled dims := by
  have hlabels := h.map Prod.fst
  exact ⟨hlabels.nodup_iff.mpr (by simp), by simp [hlabels.mem_iff], by simp [hlabels.mem_iff]⟩

theorem sizes (hvalid : cfg.Valid) (hnh : 0 < nh) (hhd : 0 < hd) : 0 ∉ dims.map Prod.snd := by
  have hpage := pageSize_pos hvalid
  obtain ⟨hblocks, hlayers, ⟨houter, -⟩, -, -, -⟩ := hvalid
  simp only [(h.map Prod.snd).mem_iff, map_cons, map_nil, mem_cons, not_mem_nil, or_false]
  omega

theorem outer (hvalid : cfg.Valid) :
    ∀ n ∈ sizeAt (dims.map Prod.fst) (dims.map Prod.snd) .outer, 1 ≤ n ∧ n ≤ 2 := by
  intro n hn
  obtain ⟨a, ha, rfl⟩ := Option.map_eq_some_iff.mp hn
  have hmem := mem_of_find?_eq_some ha
  have hlabel : a.1 = .outer := by simpa using find?_some ha
  rw [zip_map', mem_map] at hmem
  obtain ⟨d, hd, rfl⟩ := hmem
  rw [h.mem_iff] at hd
  obtain rfl : d = (.outer, cfg.outerDim) := by
    simp only [mem_cons, not_mem_nil, or_false] at hd
    rcases hd with rfl | rfl | rfl | rfl | rfl | rfl <;> first | rfl | cases hlabel
  exact hvalid.outer

theorem along :
    (∀ d ∈ dims, x.along block d.1 < d.2) ↔ block < cfg.numBlocks ∧ x.Fits cfg nh hd := by
  simp only [h.mem_iff, forall_mem_cons]
  exact ⟨fun ⟨hb, hl, ho, hp, hh, he, _⟩ => ⟨hb, hl, ho, hp, hh, he⟩,
    fun ⟨hb, hl, ho, hp, hh, he⟩ => ⟨hb, hl, ho, hp, hh, he, nofun⟩⟩

theorem ext_along {block' : Nat} {x' : Label}
    (heq : ∀ d ∈ dims.map Prod.fst, x.along block d = x'.along block' d) :
    block = block' ∧ x = x' := by
  simp only [(h.map Prod.fst).mem_iff, map_cons, map_nil, forall_mem_cons] at heq
  obtain ⟨hb, hl, ho, hp, hh, he, -⟩ := heq
  cases x
  cases x'
  simp only [Label.along, coordOf, Option.getD_some] at hb hl ho hp hh he
  exact ⟨hb, by rw [hl, ho, hp, hh, he]⟩

end AllAxes

theorem Placed.regionSize_pos {byteAt : Nat → Label → Nat → Nat}
    (h : Placed l nh hd byteAt) : 0 < l.config.regionSize := by
  rw [LayoutConfig.regionSize, h.heads]
  exact Nat.mul_pos (Nat.mul_pos (pageSize_pos h.valid) (Nat.mul_pos h.heads_pos.1 h.heads_pos.2))
    (dtypeWidth_pos h.valid)

namespace Contiguous

open FullyContiguousLayout

variable (l : FullyContiguousLayout)

/-- The block layouts that have a view. -/
def Ordered : Prop :=
  l.kvBlockLayout = .operationalNHD ∨ l.kvBlockLayout = .operationalHND ∨
    l.kvBlockLayout = .universal

def viewDims (nh hd : Nat) : List (KvDim × Nat) :=
  (.block, l.config.numBlocks) :: blockDims l.kvBlockLayout l.config nh hd

def byteAt (nh hd block : Nat) (x : Label) (k : Nat) : Nat :=
  l.baseAddr + place (indexOf l.config.dtypeWidthBytes (viewDims l nh hd) block x k)

variable {l}

theorem viewAxes_eq (horder : Ordered l) :
    l.viewAxes nh hd = .ok (rowMajor l.config.dtypeWidthBytes (viewDims l nh hd)) := by
  unfold Ordered at horder
  rcases horder with h | h | h
  all_goals
    simp only [viewAxes, h, viewDims, blockDims, regionDims, rowMajor, map_cons, map_nil, prod_cons,
      prod_nil, Except.ok.injEq, cons.injEq, Axis.mk.injEq, true_and, and_true]
    exact ⟨by ring, by ring, by ring, by ring, by ring, by ring⟩

theorem memoryRegion_eq_ok {block layer outer : Nat} {r : MemoryRegion} :
    l.memoryRegion block layer outer = .ok r ↔
    (block < l.config.numBlocks ∧ layer < l.config.numLayers ∧ outer < l.config.outerDim) ∧
      r = ⟨l.baseAddr + block * l.blockStride + layer * l.layerStride + outer * l.outerStride,
        l.config.regionSize⟩ := by
  rw [memoryRegion, ← checkIds_eq_none]
  cases checkIds l.config block layer outer <;> simp [eq_comm]

theorem allAxes : AllAxes l.config nh hd (viewDims l nh hd) := blockDims_perm.cons _

variable (hheads : resolveHeadDims l.config = .ok (nh, hd))

include hheads

theorem addrAt (horder : Ordered l) (block : Nat) (x : Label) (addr : Nat) :
    AddrAt l.toLayout block x addr ↔
      block < l.config.numBlocks ∧ x.Fits l.config nh hd ∧ byteAt l nh hd block x 0 = addr := by
  obtain ⟨-, hnh, hhd⟩ := resolveHeadDims_eq_ok l.valid hheads
  have hdims : AllAxes l.config nh hd (viewDims l nh hd) := allAxes
  obtain ⟨v, hv, haxes, hregions, hregionAxis, hslices⟩ :=
    viewOf_rowMajor [l.baseAddr] none hdims.labelled (hdims.sizes l.valid hnh hhd)
      (dtypeWidth_pos l.valid) (hdims.outer l.valid) fun _ _ _ => rfl
  have hknown : l.kvBlockLayout ≠ .unknown := by
    unfold Ordered at horder
    rcases horder with h | h | h
    all_goals simp [h]
  have hview : l.layoutView = .ok v := by
    unfold layoutView
    rw [if_neg hknown, hheads, Except.bind]
    simp only [viewAxes_eq horder, Except.bind, hv]
  have haddr := addrOf_rowMajor block x addr hdims.labelled.payload haxes hregions hregionAxis
    hslices
  rw [addrAt_iff hview, haddr, hdims.along, and_assoc, byteAt]

omit hheads in
theorem byteAt_eq (hinner : l.config.innerDim = nh * hd) :
    byteAt l nh hd block x k = l.baseAddr + block * l.blockStride +
      place (indexOf l.config.dtypeWidthBytes (blockDims l.kvBlockLayout l.config nh hd) block x
        k) := by
  simp only [byteAt, viewDims, indexOf_cons, place, span_indexOf, prod_blockDims hinner,
    blockStride, layerStride, outerStride, Label.along, coordOf, Option.getD_some]
  ring

/-- **A fully contiguous layout keeps its bytes in the order of its block layout.** -/
theorem placed (horder : Ordered l) : Placed l.toLayout nh hd (byteAt l nh hd) where
  view := addrAt hheads horder
  byte := fun block x k => by
    rw [byteAt, byteAt, place_indexOf, Nat.add_assoc]
  inj {block block' x x' _ _} hb hx hk hb' hx' hk' h := by
    have hin := within_indexOf (allAxes.along.mpr ⟨hb, hx⟩) hk
    have hin' := within_indexOf (allAxes.along.mpr ⟨hb', hx'⟩) hk'
    have hindex := place_inj (by simp [indexOf]) hin hin' (Nat.add_left_cancel h)
    obtain ⟨halong, hkk⟩ := indexOf_inj hindex
    obtain ⟨hbb, hxx⟩ := allAxes.ext_along halong
    exact ⟨hbb, hxx, hkk⟩
  inRange := fun block layer outer r h => by
    obtain ⟨⟨hb, hl, ho⟩, rfl⟩ := memoryRegion_eq_ok.mp h
    exact ⟨hb, hl, ho, rfl⟩
  exists_region _ _ _ hb hl ho := ⟨_, memoryRegion_eq_ok.mpr ⟨⟨hb, hl, ho⟩, rfl⟩⟩
  region := fun hone block x r k hx h => by
    obtain ⟨-, rfl⟩ := memoryRegion_eq_ok.mp h
    have hinner := (resolveHeadDims_eq_ok l.valid hheads).1
    simp only [toLayout] at hone ⊢
    rw [byteAt_eq hinner, place_blockDims hinner hx hone, regionIndex_block]
    simp only [blockStride, layerStride, outerStride]
    ring
  whole := fun _ block x k r h => by
    obtain ⟨-, rfl⟩ := memoryRegion_eq_ok.mp h
    have hinner := (resolveHeadDims_eq_ok l.valid hheads).1
    simp only [toLayout]
    rw [byteAt_eq hinner, blockIndex_block]
    simp only [blockStride, Nat.zero_mul, Nat.add_zero]
  wholeRegion := fun _ block layer outer r r' h h' => by
    obtain ⟨-, rfl⟩ := memoryRegion_eq_ok.mp h
    obtain ⟨-, rfl⟩ := memoryRegion_eq_ok.mp h'
    simp only [layerStride, outerStride, toLayout]
    ring
  ordered := horder
  contiguous := fun _ => rfl
  heads := (resolveHeadDims_eq_ok l.valid hheads).1
  heads_pos := (resolveHeadDims_eq_ok l.valid hheads).2
  valid := l.valid
  regionSizes := rfl
  blockBytes := by
    change l.blockStride = _
    simp only [blockStride, layerStride, outerStride, toLayout]
    ring

end Contiguous

namespace Separate

open LayerSeparateLayout

variable (l : LayerSeparateLayout)

def Ordered : Prop := l.kvBlockLayout = .operationalNHD ∨ l.kvBlockLayout = .operationalHND

/-- No two layers share memory. -/
def Apart : Prop :=
  l.memoryRegions.Pairwise fun m m' => m.addr + m.size ≤ m'.addr ∨ m'.addr + m'.size ≤ m.addr

/-- The axes of the memory of one layer. -/
def bufferDims (nh hd : Nat) : List (KvDim × Nat) :=
  (match l.blockDim with
    | .blockIsFirstDim => [(.block, l.config.numBlocks), (.outer, l.config.outerDim)]
    | .blockIsSecondDim => [(.outer, l.config.outerDim), (.block, l.config.numBlocks)]) ++
  regionDims l.kvBlockLayout l.config nh hd

def byteAt (nh hd block : Nat) (x : Label) (k : Nat) : Nat :=
  l.layerBase x.layer + place (indexOf l.config.dtypeWidthBytes (bufferDims l nh hd) block x k)

variable {l}

theorem viewAxes_eq (horder : Ordered l) :
    ∃ inner, l.innerAxes nh hd = .ok inner ∧ l.aroundAxes inner.2 ++ inner.1 =
      rowMajor l.config.dtypeWidthBytes ((.layer, l.config.numLayers) :: bufferDims l nh hd) := by
  unfold Ordered at horder
  rcases horder with h | h
  all_goals
    simp only [innerAxes, h]
    refine ⟨_, rfl, ?_⟩
    unfold aroundAxes bufferDims
    cases l.blockDim
    all_goals
      simp only [h, regionDims, rowMajor, cons_append, nil_append, map_cons, map_nil, prod_cons,
        prod_nil, cons.injEq, Axis.mk.injEq, true_and, and_true]
      exact ⟨by ring, by ring, by ring, by ring, by ring, by ring⟩

theorem memoryRegion_eq_ok {block layer outer : Nat} {r : MemoryRegion} :
    l.memoryRegion block layer outer = .ok r ↔
    (block < l.config.numBlocks ∧ layer < l.config.numLayers ∧ outer < l.config.outerDim) ∧
      r = ⟨l.layerBase layer + (block * l.blockStride + outer * l.outerStride),
        l.config.regionSize⟩ := by
  rw [memoryRegion, ← checkIds_eq_none]
  cases checkIds l.config block layer outer <;> simp [eq_comm]

theorem allAxes : AllAxes l.config nh hd ((.layer, l.config.numLayers) :: bufferDims l nh hd) := by
  have hbuffer : (bufferDims l nh hd).Perm [(.block, l.config.numBlocks),
      (.outer, l.config.outerDim), (.page, l.config.pageSize), (.headCount, nh),
      (.headSize, hd)] := by
    unfold bufferDims
    cases l.blockDim with
    | blockIsFirstDim => exact (regionDims_perm.cons _).cons _
    | blockIsSecondDim => exact .trans (.swap _ _ _) ((regionDims_perm.cons _).cons _)
  exact (hbuffer.cons _).trans (.swap _ _ _)

theorem along_bufferDims :
    (∀ d ∈ bufferDims l nh hd, x.along block d.1 < d.2) ∧ x.layer < l.config.numLayers ↔
      block < l.config.numBlocks ∧ x.Fits l.config nh hd := by
  rw [← allAxes.along, forall_mem_cons, and_comm]
  rfl

variable (hheads : resolveHeadDims l.config = .ok (nh, hd))

include hheads

theorem addrAt (horder : Ordered l) (block : Nat) (x : Label) (addr : Nat) :
    AddrAt l.toLayout block x addr ↔
      block < l.config.numBlocks ∧ x.Fits l.config nh hd ∧ byteAt l nh hd block x 0 = addr := by
  obtain ⟨-, hnh, hhd⟩ := resolveHeadDims_eq_ok l.valid hheads
  have hdims := @allAxes nh hd l
  have hlabels := hdims.labelled
  obtain ⟨v, hv, haxes, hregions, hregionAxis, hslices⟩ :=
    viewOf_rowMajor (l.memoryRegions.map MemoryRegion.addr) (some .layer) hlabels
      (hdims.sizes l.valid hnh hhd) (dtypeWidth_pos l.valid) (hdims.outer l.valid)
      fun layout hdims hsizes => by
        simp [RegionsFit, KvDimLayout.sizeOf, hdims, hsizes, sizeAt, l.count]
  have hknown : l.kvBlockLayout ≠ .unknown := by
    unfold Ordered at horder
    rcases horder with h | h
    all_goals simp [h]
  obtain ⟨inner, hinner, hinnerAxes⟩ := @viewAxes_eq nh hd l horder
  have hview : l.layoutView = .ok v := by
    unfold layoutView
    rw [if_neg hknown, hheads, Except.bind]
    simp only [hinner, Except.bind, hinnerAxes, hv]
  have hlayerDim : KvDim.layer ∉ (bufferDims l nh hd).map Prod.fst :=
    (nodup_cons.mp hlabels.nodup).1
  have hpayload : KvDim.payload ∉ (bufferDims l nh hd).map Prod.fst := fun h =>
    hlabels.payload (mem_cons_of_mem _ h)
  have haddr := addrOf_layers block x addr hlayerDim hpayload haxes hregionAxis hslices
  have hbase : ∀ base, v.regions[x.layer]? = some base ↔
      x.layer < l.config.numLayers ∧ l.layerBase x.layer = base := by
    intro base
    rw [hregions, layerBase, ← l.count]
    by_cases h : x.layer < l.memoryRegions.length
    · simp [h]
    · simp [h]
  simp only [hbase] at haddr
  rw [addrAt_iff hview, haddr, ← and_assoc, ← along_bufferDims]
  constructor
  · intro ⟨base, ⟨hl, hb⟩, hall, he⟩
    exact ⟨⟨hall, hl⟩, by rw [byteAt, hb, he]⟩
  · intro ⟨⟨hall, hl⟩, he⟩
    exact ⟨_, ⟨hl, rfl⟩, hall, he⟩

theorem span_bufferDims :
    span (indexOf l.config.dtypeWidthBytes (bufferDims l nh hd) block x k) =
      l.config.numBlocks * l.config.outerDim * l.config.regionSize := by
  have hinner := (resolveHeadDims_eq_ok l.valid hheads).1
  unfold bufferDims
  cases l.blockDim
  all_goals
    simp only [cons_append, nil_append, indexOf_cons, span_cons, span_regionDims hinner]
    ring

omit hheads in
/-- Two bytes at one address are in the memory of one layer. -/
theorem layer_inj (hapart : Apart l) {i j p q : Nat} (hi : i < l.config.numLayers)
    (hj : j < l.config.numLayers)
    (hp : p < l.config.numBlocks * l.config.outerDim * l.config.regionSize)
    (hq : q < l.config.numBlocks * l.config.outerDim * l.config.regionSize)
    (h : l.layerBase i + p = l.layerBase j + q) : i = j := by
  rw [← l.count] at hi hj
  have hbase : ∀ {n} (hn : n < l.memoryRegions.length),
      l.layerBase n = l.memoryRegions[n].addr := by
    intro n hn
    simp [layerBase, hn]
  have hsize := l.fits _ (getElem_mem hi)
  have hsize' := l.fits _ (getElem_mem hj)
  have hdisjoint := pairwise_iff_getElem.mp hapart
  rw [hbase hi, hbase hj] at h
  by_contra hne
  cases Nat.lt_or_gt_of_ne hne with
  | inl hlt =>
    have := hdisjoint i j hi hj hlt
    omega
  | inr hlt =>
    have := hdisjoint j i hj hi hlt
    omega

/-- **A layer-separate layout keeps the bytes of a layer in the order of its block layout.** -/
theorem placed (horder : Ordered l) (hapart : Apart l) :
    Placed l.toLayout nh hd (byteAt l nh hd) where
  view := addrAt hheads horder
  byte := fun block x k => by
    rw [byteAt, byteAt, place_indexOf, Nat.add_assoc]
  inj {block block' x x' _ _} hb hx hk hb' hx' hk' h := by
    have hin := within_indexOf (along_bufferDims.mpr ⟨hb, hx⟩).1 hk
    have hin' := within_indexOf (along_bufferDims.mpr ⟨hb', hx'⟩).1 hk'
    have hlt := (place_lt hin).trans_eq (span_bufferDims hheads)
    have hlt' := (place_lt hin').trans_eq (span_bufferDims hheads)
    have hlayer : x.layer = x'.layer := layer_inj hapart hx.layer hx'.layer hlt hlt' h
    rw [byteAt, byteAt, hlayer] at h
    have hindex := place_inj (by simp [indexOf]) hin hin' (Nat.add_left_cancel h)
    obtain ⟨halong, hkk⟩ := indexOf_inj hindex
    obtain ⟨hbb, hxx⟩ := allAxes.ext_along (forall_mem_cons.mpr ⟨hlayer, halong⟩)
    exact ⟨hbb, hxx, hkk⟩
  inRange := fun block layer outer r h => by
    obtain ⟨⟨hb, hl, ho⟩, rfl⟩ := memoryRegion_eq_ok.mp h
    exact ⟨hb, hl, ho, rfl⟩
  exists_region _ _ _ hb hl ho := ⟨_, memoryRegion_eq_ok.mpr ⟨⟨hb, hl, ho⟩, rfl⟩⟩
  region := fun _ block x r k _ h => by
    obtain ⟨-, rfl⟩ := memoryRegion_eq_ok.mp h
    have hinner := (resolveHeadDims_eq_ok l.valid hheads).1
    simp only [toLayout]
    rw [← @regionIndex_block l.config nh hd _ _ block]
    unfold byteAt bufferDims blockStride outerStride
    cases l.blockDim
    all_goals
      simp only [cons_append, nil_append, indexOf_cons, place, span_cons,
        span_regionDims hinner, Label.along, coordOf, Option.getD_some]
      ring
  whole := by simp [toLayout]
  wholeRegion := by simp [toLayout]
  ordered := horder.elim .inl fun h => .inr (.inl h)
  contiguous := fun h => by
    change l.kvBlockLayout = .universal at h
    unfold Ordered at horder
    rw [h] at horder
    simp at horder
  heads := (resolveHeadDims_eq_ok l.valid hheads).1
  heads_pos := (resolveHeadDims_eq_ok l.valid hheads).2
  valid := l.valid
  regionSizes := rfl
  blockBytes := by
    simp only [toLayout, LayoutConfig.regionSize]
    ring

end Separate

/-- The layouts that transfers are made between: in one allocation, or with one for each layer. -/
inductive Built (nh hd : Nat) : Layout → Prop
  | contiguous (l : FullyContiguousLayout) (hheads : resolveHeadDims l.config = .ok (nh, hd))
      (horder : Contiguous.Ordered l) : Built nh hd l.toLayout
  | separate (l : LayerSeparateLayout) (hheads : resolveHeadDims l.config = .ok (nh, hd))
      (horder : Separate.Ordered l) (hapart : Separate.Apart l) : Built nh hd l.toLayout

theorem Built.placed (h : Built nh hd l) : ∃ byteAt, Placed l nh hd byteAt := by
  cases h with
  | contiguous l hheads horder => exact ⟨_, Contiguous.placed hheads horder⟩
  | separate l hheads horder hapart => exact ⟨_, Separate.placed hheads horder hapart⟩

end Transfer

end Kvbm
