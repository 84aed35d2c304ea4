/-! # Bytes

Files hold bytes. Text is stored in UTF-8; not every row of bytes is a text.
-/

namespace Linearizability

abbrev Bytes := List UInt8

namespace Bytes

def ofString (s : String) : Bytes := s.toByteArray.data.toList

/-- The text that the bytes encode, if they encode one. -/
def toString? (bytes : Bytes) : Option String := String.fromUTF8? ⟨bytes.toArray⟩

theorem toString?_ofString (s : String) : toString? (ofString s) = some s := by
  simp only [toString?, ofString, String.fromUTF8?, Array.toArray_toList]
  exact dif_pos s.isValidUTF8

end Bytes

end Linearizability
