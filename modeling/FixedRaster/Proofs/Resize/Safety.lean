import Mathlib
import FixedRaster.Proofs.Resize.Resampling

/-!
# Accepted kernels keep both passes safe

The mass that is checked once a row bounds every later word: the sum of magnitudes itself, all
prefixes of the sums, the products in them, the samples of the intermediate image and the constant
added before the last shift. The lengths that are checked once a call bound every index.
-/

namespace FixedRaster.Resize

/-- The word sum over a row is the unbounded one after every tap. -/
structure Tracks (term : Int32 → ℕ → Int32) (f : ℕ → ℤ) (t : Taps) : Prop where
  term_eq : ∀ w ∈ t.weights, ∀ i, (term w.toInt32 i).toInt = w.toInt * f i
  prefix_eq : ∀ n, (weigh term (t.first n)).toInt = (t.first n).dot f

structure SafeDivision (color : Int32) (a : UInt8) : Prop where
  divisor_ne : (Int32.ofNat a.toNat).toInt64 ≠ 0
  product_eq : (color.toInt64 * 255).toInt = 255 * color.toInt
  quotient_eq : (color.toInt64 * 255 / (Int32.ofNat a.toNat).toInt64).toInt =
    (255 * color.toInt).tdiv a.toNat
  value_eq : (divideAlpha color (Int32.ofNat a.toNat)).toInt =
    max (-2147483648) (min 2147475455 ((255 * color.toInt).tdiv a.toNat))
  half_fits : (divideAlpha color (Int32.ofNat a.toNat) + Q14.half).toInt =
    (divideAlpha color (Int32.ofNat a.toNat)).toInt + 8192

/-- Whatever a row is laid over, no word that is computed from it wraps or is cut. The product of a
weight and an alpha is a term of `bytes`, the one with a color on top a term of `premultiplied`. -/
structure SafeRow (t : Taps) : Prop where
  magnitude : ∀ n, (weightOf (t.first n).weights).toInt = (t.first n).mass
  bytes : ∀ (image : Array UInt8) (origin : ℕ) (c : Channel),
    Tracks (fun w i => w * byteAt image (origin + i) c)
      (fun i => Exact.channel image (origin + i) c) t
  premultiplied : ∀ (image : Array UInt8) (origin : ℕ) (c : Channel),
    Tracks (fun w i => w * byteAt image (origin + i) alpha * byteAt image (origin + i) c)
      (fun i => Exact.channel image (origin + i) alpha * Exact.channel image (origin + i) c) t
  samples : ∀ (middle : Array UInt16) (origin : ℕ) (c : Channel),
    Tracks (fun w i => w * sampleAt middle (origin + i) c)
      (fun i => level middle (origin + i) c) t
  across_uncut : ∀ (image : Array UInt8) (origin : ℕ) (c : Channel),
    (across image origin t c).toNat =
      (dropNegative (weigh (fun w i => w * byteAt image (origin + i) c) t >>> sampleShift)).toNat
  acrossWithAlpha_uncut : ∀ (image : Array UInt8) (origin : ℕ) (c : Channel),
    (acrossWithAlpha image origin t c).toNat =
      (dropNegative ((if c = alpha then weigh (fun w i => w * byteAt image (origin + i) c) t
        else weigh (fun w i => w * byteAt image (origin + i) alpha * byteAt image (origin + i) c) t
          / 255) >>> sampleShift)).toNat
  half_fits : ∀ (middle : Array UInt16) (origin : ℕ) (c : Channel),
    (downSum middle origin t c + Q14.half).toInt = (downSum middle origin t c).toInt + 8192
  division : ∀ (middle : Array UInt16) (origin : ℕ) (c : Channel),
    down middle origin t alpha ≠ 0 →
      SafeDivision (downSum middle origin t c) (down middle origin t alpha)

theorem safeDivision (color : Int32) {a : UInt8} (ha : a ≠ 0) : SafeDivision color a := by
  have hv := toInt_byte a
  have hpos : 0 < a.toNat := by
    rcases Nat.eq_zero_or_pos a.toNat with hzero | hpos
    · exact absurd (UInt8.toNat_inj.1 hzero) ha
    · exact hpos
  have hne : ∀ m : Int64, m.toInt ≤ 0 → (Int32.ofNat a.toNat).toInt64 ≠ m := by
    intro m hm h
    have heq := congrArg Int64.toInt h
    rw [Int32.toInt_toInt64, hv] at heq
    omega
  have hvalue := toInt_divideAlpha color (a := Int32.ofNat a.toNat) (by omega)
  refine ⟨hne 0 (by decide), toInt_mul_255 color, ?_, ?_, ?_⟩
  · rw [Int64.toInt_div_of_ne_right _ _ (hne (-1) (by decide)), toInt_mul_255, Int32.toInt_toInt64,
      hv]
  · rw [hvalue, hv]
  · exact toInt_add_half (by omega)

theorem safeRow_of_fits {source : ℕ} {t : Taps} (ht : t.Fits source) : SafeRow t := by
  have hmass := ht.mass_le
  have hfirst : ∀ n, (t.first n).mass ≤ 32767 := fun n => (t.mass_first_le n).trans hmass
  constructor
  case magnitude =>
    intro n
    exact toInt_weightOf ((List.length_take_le' n t.weights).trans ht.length_le)
  case bytes =>
    intro image origin c
    exact ⟨fun w _ i => toInt_byte_term w image (origin + i) c,
      fun n => toInt_weigh_bytes (hfirst n) image origin c⟩
  case premultiplied =>
    intro image origin c
    exact ⟨fun w _ i => toInt_premultiplied_term w image (origin + i) c,
      fun n => toInt_weigh_premultiplied (hfirst n) image origin c⟩
  case samples =>
    intro middle origin c
    exact ⟨fun w _ i => toInt_sample_term w middle (origin + i) c,
      fun n => toInt_weigh_samples (hfirst n) middle origin c⟩
  case across_uncut =>
    intro image origin c
    exact toNat_toSample_uncut (toInt_weigh_bytes_lt hmass image origin c)
  case acrossWithAlpha_uncut =>
    intro image origin c
    rw [acrossWithAlpha]
    split_ifs with hc
    · exact toNat_toSample_uncut (toInt_weigh_bytes_lt hmass image origin c)
    · exact toNat_toSample_uncut (toInt_weigh_premultiplied_lt hmass image origin c)
  case half_fits =>
    intro middle origin c
    have hle := abs_le.1 (abs_toInt_downSum_le hmass middle origin c)
    exact toInt_add_half (by omega)
  case division =>
    intro middle origin c ha
    exact safeDivision _ ha

structure InRange (image : Array UInt8) (canvas : Canvas) (rows columns : List Taps)
    (sourceWidth sourceHeight targetWidth targetHeight : ℕ) : Prop where
  sourceWidth_pos : 0 < sourceWidth
  sourceHeight_pos : 0 < sourceHeight
  rows_length : rows.length = targetWidth
  columns_length : columns.length = targetHeight
  source_line : ∀ y < sourceHeight, (y * sourceWidth + sourceWidth) * 4 ≤ image.size
  source_taps : ∀ t ∈ rows, t.stop ≤ sourceWidth
  middle_pixel : ∀ x < targetWidth, ∀ y < sourceHeight,
    (x * sourceHeight + y) * 4 + 4 ≤ canvas.middle.size
  middle_line : ∀ x < targetWidth, (x * sourceHeight + sourceHeight) * 4 ≤ canvas.middle.size
  middle_taps : ∀ t ∈ columns, t.stop ≤ sourceHeight
  target_pixel : ∀ y < targetHeight, ∀ x < targetWidth,
    (y * targetWidth + x) * 4 + 4 ≤ canvas.target.size

section
variable {image : Array UInt8} {horizontal vertical : List Int16}
  {sourceWidth sourceHeight targetWidth targetHeight : UInt32} {canvas : Canvas}

theorem Admits.inRange {source target : Extent} {across down : Kernel}
    (h : Admits image horizontal vertical sourceWidth sourceHeight targetWidth targetHeight canvas
      source target across down) {rows columns : List Taps}
    (hrows : Kernel.Reads horizontal sourceWidth.toNat targetWidth.toNat rows)
    (hcolumns : Kernel.Reads vertical sourceHeight.toNat targetHeight.toNat columns) :
    InRange image canvas rows columns sourceWidth.toNat sourceHeight.toNat targetWidth.toNat
      targetHeight.toNat := by
  obtain ⟨hsw, hsh⟩ := Extent.of?_eq_ok_iff.1 h.source_eq
  obtain ⟨htw, hth⟩ := Extent.of?_eq_ok_iff.1 h.target_eq
  have himage : source.width * source.height * 4 ≤ image.size := h.image_le
  have htarget : target.width * target.height * 4 ≤ canvas.target.size := h.target_le
  have hmiddle := h.middle_le
  rw [Nat.mul_assoc, Nat.mul_comm sourceHeight.toNat] at hmiddle
  rw [hsw, hsh, Nat.mul_comm sourceWidth.toNat] at himage
  rw [htw, hth, Nat.mul_comm targetWidth.toNat] at htarget
  obtain ⟨hrlen, hrfit⟩ := hrows.fits
  obtain ⟨hclen, hcfit⟩ := hcolumns.fits
  constructor
  case sourceWidth_pos => exact hsw ▸ source.width_pos
  case sourceHeight_pos => exact hsh ▸ source.height_pos
  case rows_length => exact hrlen
  case columns_length => exact hclen
  case source_line =>
    intro y hy
    have hstop : y * sourceWidth.toNat + sourceWidth.toNat ≤
        sourceHeight.toNat * sourceWidth.toNat := line_stop_le hy
    omega
  case source_taps => exact fun t ht => (hrfit t ht).stop_le
  case middle_pixel =>
    intro x hx y hy
    have hplace := place_lt hx hy
    omega
  case middle_line =>
    intro x hx
    have hstop : x * sourceHeight.toNat + sourceHeight.toNat ≤
        targetWidth.toNat * sourceHeight.toNat := line_stop_le hx
    omega
  case middle_taps => exact fun t ht => (hcfit t ht).stop_le
  case target_pixel =>
    intro y hy x hx
    have hplace := place_lt hy hx
    omega

end

theorem resize_safe :
    (∀ (data : List Int16) (source count : ℕ) (k : Kernel),
      Kernel.ofPacked? data source count = .ok k →
      ∃ rows, k.rows? = some rows ∧ rows.length = count ∧
        ∀ t ∈ rows, t.stop ≤ source ∧ t.mass ≤ 32767 ∧ SafeRow t) ∧
    ∀ (image : Array UInt8) (horizontal vertical : List Int16)
      (sourceWidth sourceHeight targetWidth targetHeight : UInt32) (withAlpha : Bool)
      (canvas : Canvas), 4 * sourceHeight.toNat * targetWidth.toNat < 2 ^ 64 →
      (∃ f, f ≠ .outOfRange ∧ (resample image horizontal vertical sourceWidth sourceHeight
        targetWidth targetHeight withAlpha).run canvas = .error f canvas) ∨
      ∃ final rows columns, (resample image horizontal vertical sourceWidth sourceHeight
          targetWidth targetHeight withAlpha).run canvas = .ok () final ∧
        Kernel.Reads horizontal sourceWidth.toNat targetWidth.toNat rows ∧
        Kernel.Reads vertical sourceHeight.toNat targetHeight.toNat columns ∧
        InRange image canvas rows columns sourceWidth.toNat sourceHeight.toNat targetWidth.toNat
          targetHeight.toNat := by
  constructor
  · intro data source count k h
    obtain ⟨rows, hrows, hlength, hfits⟩ := Kernel.exists_rows_of_ofPacked? h
    refine ⟨rows, hrows, hlength, ?_⟩
    intro t ht
    exact ⟨(hfits t ht).stop_le, (hfits t ht).mass_le, safeRow_of_fits (hfits t ht)⟩
  · intro image horizontal vertical sourceWidth sourceHeight targetWidth targetHeight withAlpha
      canvas hroom
    rcases resample_refused_or_admits image horizontal vertical sourceWidth targetHeight hroom
      withAlpha canvas with hrefused | ⟨source, target, across, down, hadmits⟩
    · exact .inl hrefused
    · obtain ⟨final, rows, columns, hrun, hrows, -, hcolumns, -, -⟩ :=
        resample_of_admits hadmits withAlpha
      exact .inr ⟨final, rows, columns, hrun, hrows, hcolumns, hadmits.inRange hrows hcolumns⟩

def heavy : List Int16 := [0, 2, 24575, -8192]

def white : Array UInt8 := Array.replicate 8 255

def blank : Canvas := ⟨Array.replicate 4 0, Array.replicate 4 0⟩

theorem resize_safe_heavy :
    (∃ k, Kernel.ofPacked? heavy 2 1 = .ok k ∧
      ∃ rows, k.rows? = some rows ∧ rows.length = 1 ∧
        ∀ t ∈ rows, t.stop ≤ 2 ∧ t.mass ≤ 32767 ∧ SafeRow t) ∧
    4 * (1 : UInt32).toNat * (1 : UInt32).toNat < 2 ^ 64 ∧
    ∃ final rows columns, (resample white heavy [0, 1, 32767] 2 1 1 1 true).run blank =
        .ok () final ∧
      Kernel.Reads heavy (2 : UInt32).toNat (1 : UInt32).toNat rows ∧
      Kernel.Reads [0, 1, 32767] (1 : UInt32).toNat (1 : UInt32).toNat columns ∧
      InRange white blank rows columns (2 : UInt32).toNat (1 : UInt32).toNat (1 : UInt32).toNat
        (1 : UInt32).toNat := by
  have hkernel : Kernel.ofPacked? heavy 2 1 = .ok ⟨heavy, 1⟩ := by rfl
  have hroom : 4 * (1 : UInt32).toNat * (1 : UInt32).toNat < 2 ^ 64 := by decide
  have hrun : (resample white heavy [0, 1, 32767] 2 1 1 1 true).run blank =
      .ok () ⟨#[255, 255, 255, 255], #[32638, 32638, 32638, 32638]⟩ := by
    cbv
  refine ⟨⟨_, hkernel, resize_safe.1 heavy 2 1 _ hkernel⟩, hroom, ?_⟩
  rcases resize_safe.2 white heavy [0, 1, 32767] 2 1 1 1 true blank hroom with
    ⟨f, -, hf⟩ | hsafe
  · rw [hrun] at hf
    cases hf
  · exact hsafe

end FixedRaster.Resize
