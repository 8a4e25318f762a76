import DynamicRange.Proofs.Wav.File

/-!
# The range of decoded integers

An integer sample of `b` bits is rounded to single precision and then divided by `2 ^ (b - 1)`,
which is exact. So the samples keep the order of the integers and start at -1. Integers of up to 24
bits are not rounded, and stay below 1. The 64 greatest integers of 32 bits lie in the upper half of
the last step below `2 ^ 31`. They are rounded up to it, and their sample is 1.

## Key results

- `nearest_lt_two_pow_iff`: which integers are rounded up to `2 ^ 31`
- `decodeInteger_lt_one_iff`, `decodeInteger_mono`, `decodeInteger_lowest`: range, order, lower end
- `Wav.read_integers`: a file of integers is read as their samples
- `Wav.decoded_mem`: all of it, of the files that can be read
-/

namespace DynamicRange

open Binary

/-- The depths that integers are read with. -/
def IsIntegerDepth (bits : ℕ) : Prop := bits = 8 ∨ bits = 16 ∨ bits = 24 ∨ bits = 32

/-- The integers of a depth. -/
def InDepth (bits : ℕ) (k : ℤ) : Prop := -2 ^ (bits - 1) ≤ k ∧ k ≤ 2 ^ (bits - 1) - 1

variable {bits : ℕ} {scale : Float32} {j k : ℤ} {ks : List ℤ}

/-- An integer of a depth is no larger than its full scale. -/
theorem InDepth.abs_le_two_pow (h : InDepth bits k) : |k| ≤ 2 ^ (bits - 1) :=
  abs_le.mpr ⟨h.1, h.2.trans (sub_le_self _ zero_le_one)⟩

/-! ### Samples of integers -/

/-- The last step below `2 ^ 31` is one of 128. -/
theorem nearest_lt_two_pow_iff (k : ℤ) :
    nearest .binary32 (k : ℚ) < 2 ^ 31 ↔ k < 2 ^ 31 - 64 := by
  constructor
  · intro hlt
    -- the middle between the last two floats goes up, and so does everything above it
    by_contra! hge
    have hmiddle : nearest .binary32 (2 ^ 31 - 2 ^ 6) = 2 ^ 31 :=
      nearest_zpow_sub (f := .binary32) (k := 31) (by decide)
    have hmono := nearest_mono (f := .binary32) (v := 2 ^ 31 - 2 ^ 6) (w := k)
      (by exact_mod_cast hge)
    rw [hmiddle] at hmono
    exact absurd hlt hmono.not_gt
  · intro hlt
    -- the number before the power is nearer than the power
    have hnumber : IsNumber .binary32 (2 ^ 31 - 128) :=
      ⟨2 ^ 24 - 1, 7, by decide, by decide, by norm_num⟩
    have hmono := nearest_mono (f := .binary32) (v := k) (w := 2 ^ 31 - 65)
      (by exact_mod_cast Int.le_sub_one_of_lt hlt)
    have hnear := nearest_spec hnumber (2 ^ 31 - 65)
    have habove := (abs_le.mp (hnear.trans (by norm_num : _ ≤ (63 : ℚ)))).2
    linarith

/-- The scale of a depth of integers. -/
theorem exists_integerScale (hbits : IsIntegerDepth bits) :
    ∃ scale, fullScale? bits = some scale ∧ Finite scale ∧ value scale = 2 ^ (bits - 1) := by
  unfold IsIntegerDepth at hbits
  exact exists_scale (by omega) (by omega)

/-- The scale of a depth, as a float and as a number. -/
theorem scale_spec (hbits : IsIntegerDepth bits) (hscale : fullScale? bits = some scale) :
    -- the scale of a depth is unique, so it is the one that is known
    Finite scale ∧ value scale = 2 ^ (bits - 1) := by
  obtain ⟨scale', hscale', hspec⟩ := exists_integerScale hbits
  obtain rfl := Option.some.inj (hscale'.symm.trans hscale)
  exact hspec

section Depth

variable (hbits : IsIntegerDepth bits) (hscale : fullScale? bits = some scale)
include hbits hscale

/-- The sample of an integer of the depth. -/
theorem decodeInteger_value (hk : InDepth bits k) :
    Finite (decodeInteger scale k) ∧
      value (decodeInteger scale k) = nearest .binary32 k / 2 ^ (bits - 1) := by
  obtain ⟨hfinite, hvalue⟩ := scale_spec hbits hscale
  unfold IsIntegerDepth at hbits
  -- the scale is a power of two, so that only the integer is rounded
  exact decodeInteger_rounded hfinite hvalue (by omega) hk.abs_le_two_pow

/-- A larger integer has no smaller sample. -/
theorem decodeInteger_mono (hj : InDepth bits j) (hk : InDepth bits k) (hle : j ≤ k) :
    decodeInteger scale j ≤ decodeInteger scale k := by
  obtain ⟨hfinite, hvalue⟩ := decodeInteger_value hbits hscale hj
  obtain ⟨hfinite', hvalue'⟩ := decodeInteger_value hbits hscale hk
  -- the division by the scale keeps the order of the rounded integers
  rw [le_iff hfinite hfinite', hvalue, hvalue']
  exact div_le_div_of_nonneg_right (nearest_mono (by exact_mod_cast hle)) (by positivity)

/-- The least integer of the depth is a power of two, and its sample is -1. -/
theorem decodeInteger_lowest : decodeInteger scale (-2 ^ (bits - 1)) = -1 := by
  have hpos : (0 : ℚ) < 2 ^ (bits - 1) := by positivity
  have hone : (1 : ℤ) ≤ 2 ^ (bits - 1) := one_le_pow₀ one_le_two
  obtain ⟨hpower, hpower'⟩ := scale_spec hbits hscale
  obtain ⟨hfinite, hvalue⟩ := decodeInteger_value hbits hscale (k := -2 ^ (bits - 1))
    -- a power of two is a float, so nothing is rounded
    ⟨le_rfl, by omega⟩
  have hnumber : IsNumber .binary32 ((-2 ^ (bits - 1) : ℤ) : ℚ) := by
    push_cast
    exact hpower' ▸ hpower.isNumber.neg
  obtain ⟨hneg, hneg'⟩ := neg_exact near_one.finite
  rw [nearest_of_isNumber hnumber] at hvalue
  push_cast at hvalue
  rw [neg_div, div_self hpos.ne'] at hvalue
  -- two floats with one value are equal, as the value is not zero
  refine eq_of_value_eq hfinite hneg ?_ ?_
  · rw [hvalue, hneg', near_one.value_eq]
  · rw [hvalue]
    norm_num

/-- The samples of a depth are below 1, but for the 64 greatest integers of 32 bits. -/
theorem decodeInteger_lt_one_iff (hk : InDepth bits k) :
    decodeInteger scale k < 1 ↔ k < 2 ^ 31 - 64 := by
  have hpos : (0 : ℚ) < 2 ^ (bits - 1) := by positivity
  obtain ⟨hfinite, hvalue⟩ := decodeInteger_value hbits hscale hk
  -- the sample is below 1 if the rounded integer is below the scale
  rw [lt_iff hfinite near_one.finite, hvalue, near_one.value_eq, div_lt_one hpos]
  rcases eq_or_ne bits 32 with rfl | hne
  · exact nearest_lt_two_pow_iff k
  · -- shorter integers are not rounded
    have hle : bits - 1 ≤ 23 := by
      unfold IsIntegerDepth at hbits
      omega
    have hpow : (2 : ℤ) ^ (bits - 1) ≤ 2 ^ 23 := pow_le_pow_right₀ one_le_two hle
    have hnumber : IsNumber .binary32 (k : ℚ) :=
      isNumber_intCast (hk.abs_le_two_pow.trans (hpow.trans (by decide)))
    have hlt : k < 2 ^ (bits - 1) := Int.lt_of_le_sub_one hk.2
    rw [nearest_of_isNumber hnumber]
    exact iff_of_true (by exact_mod_cast hlt) (hlt.trans_le (hpow.trans (by norm_num)))

/-- Their sample is 1. -/
theorem decodeInteger_eq_one (hk : InDepth bits k) (hge : 2 ^ 31 - 64 ≤ k) :
    decodeInteger scale k = 1 := by
  have hpos : (0 : ℚ) < 2 ^ (bits - 1) := by positivity
  obtain ⟨hpower, hpower'⟩ := scale_spec hbits hscale
  obtain ⟨hfinite, hvalue⟩ := decodeInteger_value hbits hscale hk
  -- it is not below 1, and it cannot be above
  have hone : ¬decodeInteger scale k < 1 := by
    rw [decodeInteger_lt_one_iff hbits hscale hk]
    exact hge.not_gt
  have hle : value (decodeInteger scale k) ≤ 1 := by
    rw [hvalue, div_le_one hpos, ← hpower']
    refine nearest_le hpower.isNumber ?_
    rw [hpower']
    exact_mod_cast hk.2.trans (sub_le_self _ zero_le_one)
  -- so its value is 1, and no other float has that value
  rw [lt_iff hfinite near_one.finite, near_one.value_eq] at hone
  have heq : value (decodeInteger scale k) = 1 := le_antisymm hle (not_lt.mp hone)
  refine eq_of_value_eq hfinite near_one.finite (heq.trans near_one.value_eq.symm) ?_
  rw [heq]
  exact one_ne_zero

/-- No sample is below -1. -/
theorem neg_one_le_decodeInteger (hk : InDepth bits k) : -1 ≤ decodeInteger scale k := by
  have hlowest : InDepth bits (-2 ^ (bits - 1)) := ⟨le_rfl, hk.1.trans hk.2⟩
  exact decodeInteger_lowest hbits hscale ▸ decodeInteger_mono hbits hscale hlowest hk hk.1

end Depth

/-! ### Bytes of integers -/

/-- The bytes of an integer of a depth: those of 8 bits are centred at 128, longer ones are in two's
complement. -/
def integerBytes (bits : ℕ) (k : ℤ) : List UInt8 :=
  if bits = 8 then Bytes.ofNat 1 (k + 128).toNat
  else Bytes.ofNat (bits / 8) (k % (1 <<< bits : ℕ)).toNat

/-- The bytes of an integer are those of its depth. -/
theorem length_integerBytes (bits : ℕ) (k : ℤ) : (integerBytes bits k).length = bits / 8 := by
  unfold integerBytes
  split
  next h => rw [Bytes.length_ofNat, h]
  next => rw [Bytes.length_ofNat]

/-- The integer that is read of its bytes. -/
theorem integerOf_integerBytes (hbits : IsIntegerDepth bits) (hk : InDepth bits k) :
    WavLayout.integerOf (bits / 8) bits (Bytes.toNat (integerBytes bits k)) = .ok k := by
  obtain ⟨hlo, hhi⟩ := hk
  unfold integerBytes
  split
  next h =>
    -- a single byte has no sign: its middle stands for zero
    subst h
    have hbyte : (k + 128).toNat < 256 ^ 1 := by omega
    have hcast : (((k + 128).toNat : ℕ) : ℤ) - 128 = k := by omega
    rw [Bytes.toNat_ofNat, Nat.mod_eq_of_lt hbyte]
    exact congrArg Except.ok hcast
  -- longer integers are kept by two's complement, whose width is that of the bytes
  next h =>
    have hsigned : Bytes.signed bits (k % (1 <<< bits : ℕ)).toNat = k := by
      obtain ⟨n, rfl⟩ : ∃ n, bits = n + 1 := ⟨bits - 1, by unfold IsIntegerDepth at hbits; omega⟩
      exact Bytes.signed_emod hlo hhi
    have hpos : 0 < 1 <<< bits := by
      rw [Nat.shiftLeft_eq, one_mul]
      exact Nat.two_pow_pos _
    have hwidth : 256 ^ (bits / 8) = 1 <<< bits := by
      rcases hbits with rfl | rfl | rfl | rfl <;> rfl
    have hlt : (k % (1 <<< bits : ℕ)).toNat < 256 ^ (bits / 8) := by
      have hmod := Int.emod_lt_of_pos k (Int.natCast_pos.mpr hpos)
      rw [hwidth]
      omega
    rw [Bytes.toNat_ofNat, Nat.mod_eq_of_lt hlt]
    refine Eq.trans ?_ (congrArg Except.ok hsigned)
    -- each longer depth has its own branch
    rcases hbits with rfl | rfl | rfl | rfl
    · exact absurd rfl h
    · rfl
    · rfl
    · rfl

namespace WavLayout

/-- A layout of integers of a depth, without more bytes than the depth takes. -/
structure HasIntegers (l : WavLayout) (bits : ℕ) : Prop where
  encoding : l.encoding = .integer
  bits_eq : l.bits = bits
  width_eq : l.width = bits / 8

/-- Integers are read as their samples. -/
theorem samples_integers {l : WavLayout} (h : l.HasIntegers bits) (hbits : IsIntegerDepth bits)
    (hscale : fullScale? bits = some scale) (hks : ∀ k ∈ ks, InDepth bits k) (rest : List UInt8) :
    l.samples ks.length (ks.flatMap (integerBytes bits) ++ rest) =
      .ok (ks.map fun k => .ofValue (decodeInteger scale k)) := by
  have hwidth : 0 < bits / 8 := by
    unfold IsIntegerDepth at hbits
    omega
  have hlength : (ks.flatMap (integerBytes bits)).length = ks.length * (bits / 8) := by
    rw [List.length_flatMap, List.map_congr_left fun k _ => length_integerBytes bits k]
    simp
  -- no more samples are tried than there are bytes for, and here there are enough
  have htried : min ks.length
      ((ks.flatMap (integerBytes bits) ++ rest).length / (bits / 8) + 1) = ks.length := by
    have hle : ks.length ≤ (ks.flatMap (integerBytes bits) ++ rest).length / (bits / 8) := by
      rw [Nat.le_div_iff_mul_le hwidth, List.length_append, hlength]
      exact Nat.le_add_right ..
    omega
  -- a sample is read of the bytes of its integer, and no byte is left over
  have hsample (k : ℤ) (hk : k ∈ ks) :
      (l.sample scale ∘ integerBytes bits) k = .ok (.ofValue (decodeInteger scale k)) := by
    simp only [Function.comp_apply, sample, h.encoding, h.bits_eq, h.width_eq,
      integerOf_integerBytes hbits (hks k hk), length_integerBytes]
    exact Result.bind_eq_ok_iff.mpr ⟨_, rfl, if_neg (Nat.lt_irrefl _)⟩
  -- the scale of a layout of integers is that of the depth
  have hscale' : l.scale? = some scale := by
    rw [scale?, h.encoding, h.bits_eq]
    exact hscale
  -- the bytes are cut where one integer ends and the next begins
  simp only [samples, hscale', h.width_eq, htried]
  rw [groups_append hlength.ge, groups_flatMap fun k _ => length_integerBytes bits k,
    List.mapM_map, Result.mapM_eq_ok hsample]
  rfl

end WavLayout

namespace Wav

/-! ### Files of integers -/

variable {t : FileTree} {path : String} {file rest : List UInt8} {header : WavHeader}

/-- A file of integers is read as their samples. -/
theorem read_integers (hfile : t.readBytes path = .ok file) (hbits : IsIntegerDepth bits)
    (hscale : fullScale? bits = some scale) (hks : ∀ k ∈ ks, InDepth bits k)
    (hheader : WavHeader.read file = .ok (header, ks.flatMap (integerBytes bits) ++ rest))
    (hlayout : header.layout.HasIntegers bits) (hcount : header.count = ks.length) :
    ∃ f spec, read t path = .ok (f, spec) ∧
      f.samples = ks.map fun k => .ofValue (decodeInteger scale k) := by
  have hsamples := WavLayout.samples_integers hlayout hbits hscale hks rest
  have hdvd := WavHeader.channels_dvd_of_read hheader
  rw [← hcount] at hsamples
  -- the file is found, then its header is read, then the samples
  refine ⟨_, _, Result.bind_eq_ok_iff.mpr ⟨file, Result.mapError_eq_ok_iff.mpr hfile,
    Result.bind_eq_ok_iff.mpr ⟨_, Result.mapError_eq_ok_iff.mpr hheader,
      Result.bind_eq_ok_iff.mpr ⟨_, hsamples, rfl⟩⟩⟩, ?_⟩
  -- no sample lacks a channel, so none is left out
  show (ks.map _).take _ = ks.map _
  rw [List.length_map, ← hcount, Nat.mod_eq_zero_of_dvd hdvd, Nat.sub_zero, hcount]
  exact List.take_of_length_le (List.length_map _).le

/-- What is read of a file of integers are samples of integers of its depth. -/
theorem exists_integer_of_mem_read {f : Frame} {spec : WavSpec} (h : read t path = .ok (f, spec))
    (hheader : readHeader t path = .ok header) (hencoding : header.layout.encoding = .integer)
    (hscale : fullScale? header.layout.bits = some scale) {x : Sample} (hx : x ∈ f.samples) :
    ∃ k, InDepth header.layout.bits k ∧ x.value = decodeInteger scale k := by
  obtain ⟨header', scale', bytes, hheader', -, hscale', hlength, hsample⟩ :=
    sample_of_mem_read h hx
  -- the header is read once, so the two are the same
  obtain rfl := Except.ok.inj (hheader.symm.trans hheader')
  rw [WavLayout.scale?, hencoding] at hscale'
  obtain rfl := Option.some.inj (hscale.symm.trans hscale')
  obtain ⟨k, hk, rfl⟩ := integer_of_sample hencoding hlength hsample
  exact ⟨k, hk, Sample.value_ofValue _⟩

/-- Any bytes can be those of a file. -/
theorem exists_file (bytes : List UInt8) : ∃ t : FileTree, t.readBytes "out.wav" = .ok bytes := by
  -- a file that can be created can be written
  obtain ⟨created, hcreated⟩ := exists_create
  obtain ⟨t, ht⟩ := FileTree.exists_write_of_write hcreated bytes
  exact ⟨t, FileTree.readBytes_of_write ht⟩

/-- The header of a file of integers of 32 bits, in one channel. -/
private def longHeader : WavHeader :=
  { layout := ⟨1, 48000, 32, 4, .integer, Nat.one_pos⟩, count := 2 }

/-- A file of the two ends of 32 bits. -/
private def longFile : List UInt8 :=
  Bytes.ofText "RIFF" ++ Bytes.ofNat 4 44 ++ Bytes.ofText "WAVE" ++
    Bytes.ofText "fmt " ++ Bytes.ofNat 4 16 ++ Bytes.ofNat 2 1 ++ Bytes.ofNat 2 1 ++
    Bytes.ofNat 4 48000 ++ Bytes.ofNat 4 192000 ++ Bytes.ofNat 2 4 ++ Bytes.ofNat 2 32 ++
    Bytes.ofText "data" ++ Bytes.ofNat 4 8 ++
    ([-2 ^ 31, 2 ^ 31 - 1].flatMap (integerBytes 32) ++ [])

/-- The header of the file of two ends. -/
private theorem read_longFile :
    WavHeader.read longFile =
      .ok (longHeader, [-2 ^ 31, 2 ^ 31 - 1].flatMap (integerBytes 32) ++ []) := rfl

/-- The two ends are integers of 32 bits. -/
private theorem inDepth_ends : ∀ k ∈ [-2 ^ 31, 2 ^ 31 - 1], InDepth 32 k :=
  List.forall_mem_cons.mpr ⟨⟨by decide, by decide⟩,
    List.forall_mem_singleton.mpr ⟨by decide, by decide⟩⟩

/-- Integers of 8, 16, 24 and 32 bits become samples from -1 on, and the least integer becomes -1. A
larger integer has no smaller sample. The samples are below 1, but for the 64 greatest integers of
32 bits, whose sample is 1. Every list of integers of the depth is read as these samples, and in any
file of integers that is read each sample is that of an integer of the depth. -/
theorem decoded_mem (hbits : IsIntegerDepth bits) :
    ∃ scale, fullScale? bits = some scale ∧
      (∀ k, InDepth bits k → -1 ≤ decodeInteger scale k ∧
        (decodeInteger scale k < 1 ↔ k < 2 ^ 31 - 64) ∧
        (2 ^ 31 - 64 ≤ k → decodeInteger scale k = 1)) ∧
      (∀ j k, InDepth bits j → InDepth bits k → j ≤ k →
        decodeInteger scale j ≤ decodeInteger scale k) ∧
      decodeInteger scale (-2 ^ (bits - 1)) = -1 ∧
      (∀ t path file header (ks : List ℤ) rest, t.readBytes path = .ok file →
        WavHeader.read file = .ok (header, ks.flatMap (integerBytes bits) ++ rest) →
        header.layout.HasIntegers bits → header.count = ks.length →
        (∀ k ∈ ks, InDepth bits k) →
        ∃ f spec, read t path = .ok (f, spec) ∧
          f.samples = ks.map fun k => .ofValue (decodeInteger scale k)) ∧
      ∀ t path header f spec, readHeader t path = .ok header →
        header.layout.encoding = .integer → header.layout.bits = bits →
        read t path = .ok (f, spec) →
        ∀ x ∈ f.samples, ∃ k, InDepth bits k ∧ x.value = decodeInteger scale k := by
  -- the scale is that of the depth, and each part is one of the lemmas above
  obtain ⟨scale, hscale, -⟩ := exists_integerScale hbits
  refine ⟨scale, hscale, fun k hk => ⟨neg_one_le_decodeInteger hbits hscale hk,
    decodeInteger_lt_one_iff hbits hscale hk, decodeInteger_eq_one hbits hscale hk⟩,
    fun j k => decodeInteger_mono hbits hscale, decodeInteger_lowest hbits hscale, ?_, ?_⟩
  · intro t path file header ks rest hfile hheader hlayout hcount hks
    exact read_integers hfile hbits hscale hks hheader hlayout hcount
  -- the depth of a file that was read is that of its header
  · intro t path header f spec hheader hencoding hdepth h x hx
    subst hdepth
    exact exists_integer_of_mem_read h hheader hencoding hscale hx

/-- The ends of 32 bits, the last integer that stays below 1, and a file of the ends. -/
theorem decoded_mem_long :
    ∃ scale, fullScale? 32 = some scale ∧ decodeInteger scale (-2 ^ 31) = -1 ∧
      decodeInteger scale (2 ^ 31 - 65) < 1 ∧ decodeInteger scale (2 ^ 31 - 1) = 1 ∧
      decodeInteger scale (2 ^ 31 - 65) ≤ decodeInteger scale (2 ^ 31 - 1) ∧
      ∃ t f spec, read t "out.wav" = .ok (f, spec) ∧
        f.samples =
          [.ofValue (decodeInteger scale (-2 ^ 31)), .ofValue (decodeInteger scale (2 ^ 31 - 1))] ∧
        ∀ x ∈ f.samples, ∃ k, InDepth 32 k ∧ x.value = decodeInteger scale k := by
  have hhigh := inDepth_ends _ (List.mem_cons_of_mem _ List.mem_cons_self)
  have hbelow : InDepth 32 (2 ^ 31 - 65) := ⟨by decide, by decide⟩
  have hbits : IsIntegerDepth 32 := .inr (.inr (.inr rfl))
  obtain ⟨scale, hscale, hrange, hmono, hlowest, hlist, hmem⟩ := decoded_mem hbits
  obtain ⟨t, ht⟩ := exists_file longFile
  -- the file of the two ends is one of those that the last parts are about
  obtain ⟨f, spec, hread, hsamples⟩ := hlist t _ longFile longHeader _ [] ht read_longFile
    ⟨rfl, rfl, rfl⟩ rfl inDepth_ends
  have hheader := readHeader_of_read ht read_longFile
  exact ⟨scale, hscale, hlowest, (hrange _ hbelow).2.1.mpr (by decide),
    (hrange _ hhigh).2.2 (by decide), hmono _ _ hbelow hhigh (by decide), t, f, spec, hread,
    hsamples, hmem _ _ _ _ _ hheader rfl rfl hread⟩

/-- Not all samples of integers are below 1: the greatest integer of 32 bits is read as 1. -/
theorem decoded_not_lt_one :
    ¬∀ t path header f spec, readHeader t path = .ok header →
      header.layout.encoding = .integer → IsIntegerDepth header.layout.bits →
      read t path = .ok (f, spec) → ∀ x ∈ f.samples, -1 ≤ x.value ∧ x.value < 1 := by
  -- one sample of the file of the two ends is enough
  intro h
  have hbits : IsIntegerDepth 32 := .inr (.inr (.inr rfl))
  have hhigh := inDepth_ends _ (List.mem_cons_of_mem _ List.mem_cons_self)
  obtain ⟨scale, hscale, -⟩ := exists_integerScale hbits
  obtain ⟨t, ht⟩ := exists_file longFile
  obtain ⟨f, spec, hread, hsamples⟩ := read_integers ht hbits hscale inDepth_ends read_longFile
    ⟨rfl, rfl, rfl⟩ rfl
  have hheader := readHeader_of_read ht read_longFile
  have hmem : Sample.ofValue (decodeInteger scale (2 ^ 31 - 1)) ∈ f.samples := by
    rw [hsamples]
    exact List.mem_cons_of_mem _ List.mem_cons_self
  have hlt := (h t _ longHeader f spec hheader rfl hbits hread _ hmem).2
  -- the greatest integer is one of the 64
  rw [Sample.value_ofValue, decodeInteger_lt_one_iff hbits hscale hhigh] at hlt
  exact absurd hlt (by decide)

end Wav

end DynamicRange
