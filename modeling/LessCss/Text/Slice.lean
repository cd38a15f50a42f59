/-!
# Byte offsets into a text

Positions reported to the user count bytes of the UTF-8 encoding, while the text itself is handled
as a list of characters.  `width` measures a text in bytes; `dropBytes`, `takeBytes` and `slice` cut
at byte offsets.  On the offsets that arise here, which all lie between two characters, cutting is
exact: `slice` of the widths of `a` and `a ++ b` in `a ++ b ++ c` is `b`.
-/

namespace LessCss.Text

/-- The number of bytes of the UTF-8 encoding of a text. -/
def width : List Char → Nat
  | [] => 0
  | c :: cs => c.utf8Size + width cs

/-- The text without its first `n` bytes. -/
def dropBytes : List Char → Nat → List Char
  | [], _ => []
  | c :: cs, n => if n = 0 then c :: cs else dropBytes cs (n - c.utf8Size)

/-- The first `n` bytes of the text. -/
def takeBytes : List Char → Nat → List Char
  | [], _ => []
  | c :: cs, n => if n = 0 then [] else c :: takeBytes cs (n - c.utf8Size)

/-- The part of the text from byte `start` up to byte `stop`. -/
def slice (cs : List Char) (start stop : Nat) : List Char :=
  takeBytes (dropBytes cs start) (stop - start)

@[simp] theorem width_nil : width [] = 0 := rfl

@[simp] theorem width_cons (c : Char) (cs : List Char) :
    width (c :: cs) = c.utf8Size + width cs := rfl

theorem width_append (a b : List Char) : width (a ++ b) = width a + width b := by
  induction a with
  | nil => simp
  | cons c a ih => simp [ih, Nat.add_assoc]

@[simp] theorem dropBytes_zero (cs : List Char) : dropBytes cs 0 = cs := by
  cases cs <;> simp [dropBytes]

@[simp] theorem takeBytes_zero (cs : List Char) : takeBytes cs 0 = [] := by
  cases cs <;> simp [takeBytes]

theorem dropBytes_width_append (a b : List Char) : dropBytes (a ++ b) (width a) = b := by
  induction a with
  | nil => simp
  | cons c a ih =>
    have hc : c.utf8Size ≠ 0 := Nat.ne_of_gt c.utf8Size_pos
    simp [dropBytes, hc, ih]

theorem takeBytes_width_append (a b : List Char) : takeBytes (a ++ b) (width a) = a := by
  induction a with
  | nil => simp
  | cons c a ih =>
    have hc : c.utf8Size ≠ 0 := Nat.ne_of_gt c.utf8Size_pos
    simp [takeBytes, hc, ih]

/-- Cutting at the ends of the middle part gives the middle part. -/
theorem slice_append (a b c : List Char) :
    slice (a ++ b ++ c) (width a) (width (a ++ b)) = b := by
  rw [slice, List.append_assoc, dropBytes_width_append, width_append, Nat.add_sub_cancel_left,
    takeBytes_width_append]

end LessCss.Text
