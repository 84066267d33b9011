import Chronicle.Proofs.Catalogue.Link
import Chronicle.Proofs.Dial.Digits
import Mathlib.Data.Nat.Init

/-!
# Encodings

An assignment of truth values to the bits of a dial is a pattern.  There is one pattern for each
number from zero to the maximum, which `Dial.encode` gives, and every other pattern stands for a
number above the maximum and is not valid.  So encoding and reading are inverse to each other
between the numbers in range and the valid patterns (`Dial.Represents`), and it makes no difference
whether the maximum fills its digits.

A definition makes the bits of its dial along with it, and they start from the pattern of the start
value (`define_dial_represents`).
-/

namespace Chronicle

namespace Dial

variable {d : Dial} {s : Valuation} {f : Nat → Bool} {n k : Nat} {pairs : List (Symbol × Bool)}

/-- The bits with a truth value for each place. -/
def pattern (d : Dial) (f : Nat → Bool) : List (Symbol × Bool) :=
  (List.range d.width).map fun i => (⟨d.bitName i, d.base + i⟩, f i)

def Holds (s : Valuation) (pairs : List (Symbol × Bool)) : Prop :=
  ∀ p ∈ pairs, s.get? p.1.name = some p.2

/-! ### Names of bits -/

theorem bitName_injective (d : Dial) : Function.Injective d.bitName := by
  intro i j h
  have hrepr : i.repr = j.repr := by simpa [bitName] using h
  have hdigits : Nat.toDigits 10 i = Nat.toDigits 10 j := by
    rw [← Nat.toList_repr, hrepr, Nat.toList_repr]
  calc i = Nat.ofDigitChars 10 (Nat.toDigits 10 i) 0 := Nat.ofDigitChars_ten_toDigits.symm
    _ = Nat.ofDigitChars 10 (Nat.toDigits 10 j) 0 := by rw [hdigits]
    _ = j := Nat.ofDigitChars_ten_toDigits

theorem bitName_ne_empty (d : Dial) (i : Nat) : d.bitName i ≠ "" := by
  simp [bitName]

theorem nodup_names (d : Dial) : (d.bits.map Symbol.name).Nodup := by
  rw [bits_names]
  exact (List.nodup_range' 1).map d.bitName_injective

theorem pattern_names (d : Dial) (f : Nat → Bool) :
    ((d.pattern f).map fun p => (p.1.name, p.2)).map Prod.fst = d.bits.map Symbol.name := by
  simp [pattern, bits, Function.comp_def]

theorem exists_holds (d : Dial) (f : Nat → Bool) : ∃ s, Holds s (d.pattern f) := by
  have hn := d.pattern_names f ▸ d.nodup_names
  refine ⟨.ofList ((d.pattern f).map fun p => (p.1.name, p.2)), ?_⟩
  intro p hp
  rw [Table.get?_ofList hn]
  exact (Table.mem_iff_lookup hn).mp (List.mem_map_of_mem hp)

theorem holds_pattern_iff :
    Holds s (d.pattern f) ↔ ∀ i < d.width, s.get? (d.bitName i) = some (f i) := by
  simp [Holds, pattern]

/-! ### Numbers and patterns -/

theorem encode_eq_ok_iff {n : Int} :
    d.encode n = .ok pairs ↔ (0 ≤ n ∧ n ≤ d.max) ∧ pairs = d.pattern n.toNat.testBit := by
  unfold encode pattern
  split
  next h => simp [h, eq_comm]
  next h => simp [h]

theorem isOk_encode_iff {n : Int} : (d.encode n).isOk = true ↔ 0 ≤ n ∧ n ≤ d.max := by
  unfold encode
  split
  next h => simpa [Except.isOk, Except.toBool] using h
  next h => simpa [Except.isOk, Except.toBool] using h

/-- What a valuation holds of a dial is the pattern of a number with as many digits. -/
theorem exists_testBit (d : Dial) (f : Nat → Bool) :
    ∃ n < 2 ^ d.width, ∀ i < d.width, f i = n.testBit i := by
  refine ⟨Nat.ofBits fun i : Fin d.width => f i, Nat.ofBits_lt_two_pow _, ?_⟩
  intro i hi
  rw [Nat.testBit_ofBits_lt _ i hi]

theorem pattern_congr {g : Nat → Bool} (h : ∀ i < d.width, f i = g i) :
    d.pattern f = d.pattern g := by
  refine List.map_congr_left fun i hi => ?_
  rw [h i (List.mem_range.mp hi)]

theorem isValid_of_value (h : d.value s = .ok n) : d.isValid s = .ok (decide (n ≤ d.max)) := by
  rw [isValid, h]
  rfl

theorem value_of_encode (h : d.encode n = .ok pairs) (hs : Holds s pairs) :
    d.value s = .ok n ∧ d.isValid s = .ok true := by
  obtain ⟨⟨_, hle⟩, rfl⟩ := encode_eq_ok_iff.mp h
  have hle : n ≤ d.max := by exact_mod_cast hle
  have hvalue := value_of_digits hle (holds_pattern_iff.mp hs)
  exact ⟨hvalue, by rw [isValid_of_value hvalue, decide_eq_true hle]⟩

/-- A pattern is valid as soon as what it reads as can be encoded, and then it is the encoding. -/
theorem encode_of_value (h : Holds s (d.pattern f)) :
    ∃ n : Nat, d.value s = .ok n ∧ d.isValid s = .ok (d.encode n).isOk ∧
      ∀ pairs, d.encode n = .ok pairs → pairs = d.pattern f := by
  obtain ⟨n, hlt, hf⟩ := d.exists_testBit f
  rw [pattern_congr hf] at h ⊢
  have hvalue := value_of_testBit hlt (holds_pattern_iff.mp h)
  refine ⟨n, hvalue, ?_, ?_⟩
  · rw [isValid_of_value hvalue]
    have hiff : decide (n ≤ d.max) = true ↔ (d.encode n).isOk = true := by
      rw [isOk_encode_iff, decide_eq_true_iff]
      omega
    exact congrArg _ (Bool.eq_iff_iff.mpr hiff)
  · intro pairs hpairs
    exact (encode_eq_ok_iff.mp hpairs).2

/-- A dial keeps the numbers from zero to a maximum in its bits, one pattern for each. -/
structure Represents (d : Dial) (bits : List Variable) (start max : Int) : Prop where
  symbols : bits.map Variable.symbol = d.bits
  mutable : ∀ b ∈ bits, b.isMutable = true ∧ b.isReversible = true
  defaults : d.encode start = .ok (bits.map fun b => (b.symbol, b.default))
  nil_of_zero : max = 0 → bits = []
  encodes : ∀ n : Int, (d.encode n).isOk = true ↔ 0 ≤ n ∧ n ≤ max
  decodes : ∀ (n : Nat) pairs s, d.encode n = .ok pairs → Holds s pairs →
    d.value s = .ok n ∧ d.isValid s = .ok true
  held : ∀ f, ∃ s, Holds s (d.pattern f)
  recodes : ∀ f s, Holds s (d.pattern f) →
    ∃ n : Nat, d.value s = .ok n ∧ d.isValid s = .ok (d.encode n).isOk ∧
      ∀ pairs, d.encode n = .ok pairs → pairs = d.pattern f

theorem represents (d : Dial) :
    d.Represents ((List.range d.width).map d.bit) d.start d.max where
  symbols := by
    rw [List.map_map]
    rfl
  mutable := by
    intro b hb
    obtain ⟨i, _, rfl⟩ := List.mem_map.mp hb
    exact ⟨rfl, rfl⟩
  defaults := by
    have hstart := d.start_le
    refine encode_eq_ok_iff.mpr ⟨by omega, ?_⟩
    rw [List.map_map]
    rfl
  nil_of_zero := by
    intro h
    have hmax : d.max = 0 := by exact_mod_cast h
    simp [width, bitLength, hmax]
  encodes := fun _ => isOk_encode_iff
  decodes := fun _ _ _ => value_of_encode
  held := d.exists_holds
  recodes := fun _ _ => encode_of_value

end Dial

namespace Catalogue

theorem exists_placeBits (c : Catalogue) (label : String) (d : Dial) (is : List Nat) :
    ∃ c', c.placeBits label d is = .ok c' := by
  induction is generalizing c with
  | nil => exact ⟨c, rfl⟩
  | cons i rest ih =>
    have hbit : Variable.makeMutable c.next (d.bitName i) (d.start.testBit i) true =
        .ok ⟨⟨d.bitName i, c.next⟩, .mutable (d.start.testBit i) true, [], []⟩ :=
      if_neg (d.bitName_ne_empty i)
    obtain ⟨c', hc'⟩ := ih (c.place (bitLabel label i) _)
    exact ⟨c', bind_eq_ok.mpr ⟨_, hbit, hc'⟩⟩

/-- **A dial represents the numbers in its range.**  From any catalogue a dial can be defined with
any maximum and any start up to it; what is made are its bits, and between the numbers in range
and the valid patterns of these bits, encoding and reading are inverse to each other. -/
theorem define_dial_represents (c : Catalogue) (label name : String) {start max : Int}
    (hstart : 0 ≤ start) (hmax : start ≤ max) :
    ∃ (d : Dial) (c' : Catalogue) (bits : List Variable),
      Dial.make name start max c.next = .ok d ∧ c.define label (.dial name start max) = .ok c' ∧
        c'.dial? label = some d ∧ c'.made = c.made ++ bits ∧ d.Represents bits start max := by
  let d : Dial := ⟨name, start.toNat, max.toNat, c.next, Int.toNat_le_toNat hmax⟩
  have hmake : Dial.make name start max c.next = .ok d := by
    unfold Dial.make
    rw [if_neg (by omega), dif_pos ⟨hstart, hmax⟩]
  obtain ⟨c', hc'⟩ := exists_placeBits { c with dials := c.dials.set label d } label d
    (List.range d.width)
  obtain ⟨hdials, hmade, _⟩ := made_placeDial (d := d) rfl hc'
  have hrepresents := d.represents
  rw [show (d.start : Int) = start from Int.toNat_of_nonneg hstart,
    show (d.max : Int) = max from Int.toNat_of_nonneg (by omega)] at hrepresents
  refine ⟨d, c', (List.range d.width).map d.bit, hmake, bind_eq_ok.mpr ⟨d, hmake, hc'⟩, ?_, ?_,
    hrepresents⟩
  · rw [dial?, hdials]
    exact Table.get?_set_self _ label d
  · rw [hmade, List.range_eq_range']

/-- Three bits are enough for five numbers, and some of their patterns stand for none of them. -/
theorem define_dial_represents_five :
    ∃ (d : Dial) (bits : List Variable), d.Represents bits 2 4 ∧
      bits.map Variable.default = [false, true, false] ∧
      (∃ s, Dial.Holds s (d.pattern (Nat.testBit 5)) ∧ d.value s = .ok 5 ∧
        d.isValid s = .ok false) := by
  have hmax : (2 : Int) ≤ 4 := by decide
  obtain ⟨d, c', bits, hmake, _, _, _, h⟩ :=
    define_dial_represents empty "lamp" "lamp" (by decide) hmax
  cases hmake
  refine ⟨_, bits, h, ?_, ?_⟩
  · calc bits.map Variable.default
        = (bits.map fun b => (b.symbol, b.default)).map Prod.snd := by simp
      _ = [false, true, false] :=
        (congrArg (List.map Prod.snd) (Except.ok.inj h.defaults)).symm
  · obtain ⟨s, hs⟩ := h.held (Nat.testBit 5)
    have hvalue := Dial.value_of_testBit (by decide) (Dial.holds_pattern_iff.mp hs)
    exact ⟨s, hs, hvalue, Dial.isValid_of_value hvalue⟩

end Catalogue

end Chronicle
