/-! # JSON text from bytes

Bytes are read as UTF-8. A byte that belongs to no character does no harm in a string that is passed
over, so it becomes a piece of text that is well formed there and an error anywhere else. Nothing
else changes: the bytes of a text give the text back (`textOfBytes_toUTF8`).
-/

namespace Patchbay.Json

/-- What stands for a byte that belongs to no character. The escapes spell no character, so a string
with them cannot be used, and the letter is out of place after a backslash and outside strings. -/
def strayText : String := "x\\ud800\\ud800"

/-- The text of the bytes from a place on, after some text. -/
def decodeFrom (bs : ByteArray) (place : Nat) (done : String) : String :=
  if place < bs.size then
    match bs.utf8DecodeChar? place with
    | some c => decodeFrom bs (place + c.utf8Size) (done.push c)
    | none => decodeFrom bs (place + 1) (done ++ strayText)
  else done
termination_by bs.size - place
decreasing_by
  · have := c.utf8Size_pos
    omega
  · omega

/-- The text of bytes. -/
def textOfBytes (bs : ByteArray) : String :=
  match String.fromUTF8? bs with
  | some s => s
  | none => decodeFrom bs 0 ""

theorem textOfBytes_toUTF8 (s : String) : textOfBytes s.toUTF8 = s := by
  have h : String.fromUTF8? s.toUTF8 = some s := by
    unfold String.fromUTF8?
    rw [String.toUTF8_eq_toByteArray, dif_pos s.isValidUTF8]
    rfl
  rw [textOfBytes, h]

end Patchbay.Json
