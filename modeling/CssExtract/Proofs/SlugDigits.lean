import CssExtract.Styled.Naming

namespace CssExtract

namespace Base36

variable {s : List Char} {n : Nat}

theorem eq_write_iff : s = write n ↔ IsNumeral s ∧ read s = n := by
  constructor
  · rintro rfl
    exact ⟨isNumeral_write n, read_write n⟩
  · rintro ⟨hnumeral, rfl⟩
    exact (write_read hnumeral).symm

theorem write_inj {m : Nat} : write m = write n ↔ m = n := by
  refine ⟨fun h => ?_, congrArg write⟩
  rw [← read_write m, h, read_write]

end Base36

namespace Digest

theorem State.extractLsb'_bits (s : State) : s.bits.extractLsb' 128 32 = s.a.toBitVec := by
  rw [State.bits]
  exact BitVec.extractLsb'_append_eq_left

theorem leading_eq_toNat (message : List UInt8) :
    leading message = ((sha1 message).bits.extractLsb' 128 32).toNat := by
  rw [leading, State.extractLsb'_bits, UInt32.toNat_toBitVec]

end Digest

namespace Styled

open Base36 Digest

def digest (text : String) : BitVec 160 := (sha1 text.toUTF8.toList).bits

theorem toList_slugify (text : String) :
    (slugify text).toList = write ((digest text).extractLsb' 128 32).toNat := by
  rw [slugify, String.toList_ofList, leading_eq_toNat, digest]

theorem slugify_exact :
    (∀ n s, s = write n ↔ IsNumeral s ∧ Base36.read s = n) ∧
      (∀ text, IsNumeral (slugify text).toList ∧
        Base36.read (slugify text).toList = ((digest text).extractLsb' 128 32).toNat) ∧
      ∀ text text', slugify text = slugify text' ↔
        (digest text).extractLsb' 128 32 = (digest text').extractLsb' 128 32 := by
  refine ⟨fun n s => eq_write_iff, fun text => eq_write_iff.1 (toList_slugify text), fun text text' => ?_⟩
  rw [← String.toList_inj, toList_slugify, toList_slugify, write_inj, BitVec.toNat_inj]

example : digest "abc" = 0xA9993E364706816ABA3E25717850C26C9CD0D89D#160 ∧ slugify "abc" = "1b22muu" := by
  decide +kernel

end Styled

end CssExtract
