import Mathlib.Data.List.GetD
import SimpleOs.Library.Bytes

/-!
# Files of bytes

A file is the list of its bytes. A read stops at the end of the file, and a write behind
the end fills the bytes in between with zeros.
-/

namespace ByteFile

open Bytes

variable {file : List UInt8} {buf : Memory} {count offset c : ℕ}

/-- The bytes of a file, and zeros behind its end. -/
def content (file : List UInt8) : Memory := fun c => file.getD c 0

/-- Read at most `count` bytes from a position on. -/
def pread (file : List UInt8) (buf : Memory) (count offset : ℕ) : ℕ × Memory :=
  let got := (file.drop offset).take count
  (got.length, splice buf 0 got.length (content got))

/-- Write `count` bytes from a position on. -/
def pwrite (file : List UInt8) (buf : Memory) (count offset : ℕ) : ℕ × List UInt8 :=
  if count = 0 then (0, file)
  else
    let filled := file ++ List.replicate (offset - file.length) 0
    (count, filled.take offset ++ (List.range count).map buf ++ filled.drop (offset + count))

/-! ## Bytes -/

/-- There are zeros behind the end. -/
theorem content_end (h : file.length ≤ c) : content file c = 0 := List.getD_eq_default _ _ h

/-- A byte of what is left behind `offset` is the byte of the file that much further on. -/
theorem content_drop : content (file.drop offset) c = content file (offset + c) := by
  rw [content, content, List.getD_eq_getElem?_getD, List.getElem?_drop,
    List.getD_eq_getElem?_getD]

/-- A byte within the part that is kept is the byte of the file. -/
theorem content_take (h : c < count) : content (file.take count) c = content file c := by
  rw [content, content, List.getD_eq_getElem?_getD, List.getElem?_take_of_lt h,
    List.getD_eq_getElem?_getD]

/-- The bytes of one file behind another. -/
theorem content_append {other : List UInt8} : content (file ++ other) c =
    if c < file.length then content file c else content other (c - file.length) := by
  split
  · rename_i hlt
    exact List.getD_append _ _ _ _ hlt
  · rename_i hge
    exact List.getD_append_right _ _ _ _ (Nat.not_lt.mp hge)

/-- Zeros at the end change no byte. -/
theorem content_append_zeros {k : ℕ} : content (file ++ List.replicate k 0) = content file := by
  funext c
  rw [content_append]
  split
  · rfl
  · rename_i hge
    rw [content_end (Nat.not_lt.mp hge), content, List.getD_eq_getElem?_getD,
      List.getElem?_replicate]
    split <;> rfl

/-- The bytes that come from a memory. -/
theorem content_map_range (h : c < count) : content ((List.range count).map buf) c = buf c := by
  rw [content, List.getD_eq_getElem?_getD, List.getElem?_map, List.getElem?_range h]
  rfl

/-! ## Reading -/

/-- A read of bytes that are all there. -/
theorem pread_full (h : offset + count ≤ file.length) :
    pread file buf count offset = (count, splice buf 0 count (view (content file) offset)) := by
  have hlength : ((file.drop offset).take count).length = count := by
    rw [List.length_take, List.length_drop]
    omega
  rw [pread]
  simp only [hlength]
  congr 1
  funext c
  simp only [splice]
  split
  · rw [content_take (by omega), content_drop, view]
  · rfl

/-- A read behind the end of the file reads nothing. -/
theorem pread_end (h : file.length ≤ offset) : pread file buf count offset = (0, buf) := by
  have hnone : (file.drop offset).take count = [] := by
    rw [List.drop_of_length_le h, List.take_nil]
  have hsame : splice buf 0 0 (content []) = buf := by
    funext c
    exact splice_outside (by omega)
  rw [pread, hnone]
  exact congrArg (Prod.mk 0) hsame

/-! ## Writing -/

/-- A write that is not empty ends where its last byte is, or does not change the end. -/
theorem pwrite_length (h : 0 < count) :
    (pwrite file buf count offset).2.length = max file.length (offset + count) := by
  rw [pwrite, if_neg h.ne']
  simp only [List.length_append, List.length_take, List.length_replicate, List.length_map,
    List.length_range, List.length_drop]
  omega

/-- A write replaces the bytes in its range and leaves the others. -/
theorem content_pwrite :
    content (pwrite file buf count offset).2 = splice (content file) offset count buf := by
  funext c
  by_cases hcount : count = 0
  · rw [pwrite, if_pos hcount, splice_outside (by omega)]
  have hzeros : content (file ++ List.replicate (offset - file.length) 0) = content file :=
    content_append_zeros
  rw [pwrite, if_neg hcount, ← hzeros]
  generalize hfilled : file ++ List.replicate (offset - file.length) 0 = filled
  have hfirst : (filled.take offset).length = offset := by
    rw [← hfilled, List.length_take, List.length_append, List.length_replicate]
    omega
  have hmiddle : ((List.range count).map buf).length = count := by simp
  dsimp only
  rw [content_append, content_append, List.length_append, hfirst, hmiddle]
  by_cases hbefore : c < offset
  · rw [if_pos (by omega), if_pos hbefore, content_take hbefore, splice_outside (Or.inl hbefore)]
  by_cases hinside : c < offset + count
  · obtain ⟨k, rfl⟩ := Nat.exists_eq_add_of_le (Nat.not_lt.mp hbefore)
    rw [if_pos hinside, if_neg hbefore, Nat.add_sub_cancel_left, content_map_range (by omega),
      splice_inside (by omega)]
  · rw [if_neg hinside, content_drop, Nat.add_sub_of_le (by omega), splice_outside (by omega)]

end ByteFile
