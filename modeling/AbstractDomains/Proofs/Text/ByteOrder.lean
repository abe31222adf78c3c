import Mathlib.Data.String.Basic

/-!
# The order of strings by bytes

Strings compare character by character. The UTF-8 encoding keeps that order: of two characters, the
lesser one has the lesser byte where their encodings first differ, and no encoding is the beginning
of another one. So strings compare as their bytes do.

Results:
* `compare_utf8EncodeChar_append`: characters, with any bytes after them.
* `compare_utf8Bytes`: strings.
-/

namespace AbstractDomains.Text

/-- The bytes of a string. -/
def utf8Bytes (s : String) : List UInt8 :=
  s.toUTF8.data.toList

theorem utf8Bytes_eq (s : String) : utf8Bytes s = s.toList.flatMap String.utf8EncodeChar := by
  rw [utf8Bytes, String.toUTF8, ← String.utf8Encode_toList, List.utf8Encode,
    List.toList_data_toByteArray]

theorem compare_append_left (l xs ys : List UInt8) :
    compare (l ++ xs) (l ++ ys) = compare xs ys := by
  induction l with
  | nil => rfl
  | cons b rest ih =>
    have hb : compare b b = .eq := Std.ReflCmp.compare_self
    rw [List.cons_append, List.cons_append, List.compare_cons_cons, hb]
    exact ih

/-- **The lesser character** has the lesser byte where the encodings first differ. -/
theorem compare_utf8EncodeChar_append {c d : Char} (h : c < d) (xs ys : List UInt8) :
    compare (String.utf8EncodeChar c ++ xs) (String.utf8EncodeChar d ++ ys) = .lt := by
  have hlt : c.val.toNat < d.val.toNat := h
  have hd : d.val.toNat < 0x110000 := by
    have hvalid := d.valid
    simp only [UInt32.isValidChar, Nat.isValidChar] at hvalid
    omega
  unfold String.utf8EncodeChar
  generalize c.val.toNat = m at hlt
  generalize d.val.toNat = n at hlt hd
  dsimp only
  have hnext : ∀ k, (k % 64 + 128) % 256 = k % 64 + 128 := by omega
  have hm : (m / 262144 % 8 + 240) % 256 = m / 262144 + 240 := by omega
  have hn : (n / 262144 % 8 + 240) % 256 = n / 262144 + 240 := by omega
  -- the lead byte tells how many bytes there are, and more bytes have a greater one
  split_ifs <;>
    simp only [List.cons_append, List.nil_append, List.compare_cons_cons, Ordering.then_eq_lt,
      UInt8.compare_eq_toNat_compare_toNat, UInt8.toNat_ofNat', Nat.compare_eq_lt,
      Nat.compare_eq_eq, hnext, hm, hn, Nat.add_lt_add_iff_right,
      Nat.add_right_cancel_iff] <;>
    omega

theorem compare_flatMap_utf8EncodeChar {s t : List Char} (h : s < t) :
    compare (s.flatMap String.utf8EncodeChar) (t.flatMap String.utf8EncodeChar) = .lt := by
  induction h with
  | @nil c rest =>
    have hne : String.utf8EncodeChar c ≠ [] := String.utf8EncodeChar_ne_nil
    rw [List.flatMap_cons]
    cases hbytes : String.utf8EncodeChar c with
    | nil => exact absurd hbytes hne
    | cons b bytes => rfl
  | rel h =>
    rw [List.flatMap_cons, List.flatMap_cons]
    exact compare_utf8EncodeChar_append h _ _
  | cons _ ih =>
    rw [List.flatMap_cons, List.flatMap_cons, compare_append_left]
    exact ih

/-- **Strings compare as their bytes do.** -/
theorem compare_utf8Bytes (s t : String) :
    compare s t = compare (utf8Bytes s) (utf8Bytes t) := by
  rw [utf8Bytes_eq, utf8Bytes_eq]
  rcases lt_trichotomy s t with h | rfl | h
  · rw [compare_lt_iff_lt.mpr h]
    exact (compare_flatMap_utf8EncodeChar h).symm
  · rw [compare_eq_iff_eq.mpr rfl]
    exact Std.ReflCmp.compare_self.symm
  · rw [compare_gt_iff_gt.mpr h]
    exact (Std.OrientedCmp.gt_of_lt (compare_flatMap_utf8EncodeChar h)).symm

end AbstractDomains.Text
