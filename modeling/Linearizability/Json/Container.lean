import Linearizability.Json.Skip

/-! # Lists and objects

Readers of the elements of a list and of the members of an object.
-/

namespace Linearizability.Json

open Reader

/-- What follows in a list or an object: one more element or member, or the end. -/
inductive Next where
  | more (rest : Bytes)
  | done (rest : Bytes)

/-- The first element of a list, if there is one. -/
def firstElement (s : Bytes) : Except Fault Next :=
  match dropBlank s with
  | [] => .error .endInList
  | b :: r => if b = 93 then .ok (.done r) else .ok (.more (b :: r))

/-- The element behind another one. -/
def nextElement (s : Bytes) : Except Fault Next :=
  match dropBlank s with
  | [] => .error .endInList
  | b :: r =>
    if b = 93 then .ok (.done r)
    else if b = 44 then
      match dropBlank r with
      | [] => .error .endInValue
      | c :: r' => if c = 93 then .error .trailingComma else .ok (.more (c :: r'))
    else .error .expectedListEnd

/-- The first key of an object, if there is one; the rest starts behind its quotation mark. -/
def firstKey (s : Bytes) : Except Fault Next :=
  match dropBlank s with
  | [] => .error .endInObject
  | b :: r =>
    if b = 125 then .ok (.done r)
    else if b = 34 then .ok (.more r)
    else .error .expectedKey

/-- The key behind a member; the rest starts behind its quotation mark. -/
def nextKey (s : Bytes) : Except Fault Next :=
  match dropBlank s with
  | [] => .error .endInObject
  | b :: r =>
    if b = 125 then .ok (.done r)
    else if b = 44 then
      match dropBlank r with
      | [] => .error .endInValue
      | c :: r' =>
        if c = 34 then .ok (.more r')
        else if c = 125 then .error .trailingComma
        else .error .expectedKey
    else .error .expectedObjectEnd

/-- The length of what a next element or key leaves. -/
def Next.length : Next → Nat
  | more r | done r => r.length

theorem firstElement_length_le {s : Bytes} {next : Next} (h : firstElement s = .ok next) :
    next.length ≤ s.length := by
  have hle := length_dropBlank_le s
  unfold firstElement at h
  split at h
  · cases h
  · rename_i hs
    rw [hs, List.length_cons] at hle
    split at h <;> cases h <;> simp only [Next.length, List.length_cons] <;> omega

theorem nextElement_length_lt {s : Bytes} {next : Next} (h : nextElement s = .ok next) :
    next.length < s.length := by
  have hle := length_dropBlank_le s
  unfold nextElement at h
  split at h
  · cases h
  · rename_i hs
    rw [hs, List.length_cons] at hle
    split at h
    · cases h; simp only [Next.length]; omega
    · split at h
      · split at h
        · cases h
        · rename_i hr
          have := length_dropBlank_le ‹Bytes›
          split at h
          · cases h
          · cases h
            have := length_lt_of_dropBlank hr
            simp only [Next.length, List.length_cons]
            omega
      · cases h

theorem firstKey_length_lt {s : Bytes} {next : Next} (h : firstKey s = .ok next) :
    next.length < s.length := by
  unfold firstKey at h
  split at h
  · cases h
  · rename_i hs
    have := length_lt_of_dropBlank hs
    split at h
    · cases h; exact this
    · split at h <;> cases h; exact this

theorem nextKey_length_lt {s : Bytes} {next : Next} (h : nextKey s = .ok next) :
    next.length < s.length := by
  unfold nextKey at h
  split at h
  · cases h
  · rename_i hs
    have := length_lt_of_dropBlank hs
    split at h
    · cases h; exact this
    · split at h
      · split at h
        · cases h
        · rename_i hr
          have := length_lt_of_dropBlank hr
          split at h
          · cases h; simp only [Next.length]; omega
          · split at h <;> cases h
      · cases h

/-- The elements of a list from the one that starts here; those read already are given in the
reverse order. -/
def elementsFrom {α : Type} (element : Reader α) (read : List α) (s : Bytes) :
    Except Fault (List α × Bytes) :=
  match _h : element.run s with
  | .error fault => .error fault
  | .ok (a, r) =>
    match _hn : nextElement r with
    | .error fault => .error fault
    | .ok (.done r') => .ok ((a :: read).reverse, r')
    | .ok (.more r') => elementsFrom element (a :: read) r'
termination_by s.length
decreasing_by
  exact Nat.lt_of_lt_of_le (nextElement_length_lt ‹nextElement _ = _›)
    (element.shrinks ‹element.run _ = _›)

theorem elementsFrom_length_le {α : Type} {element : Reader α} {read as : List α} {s r : Bytes}
    (h : elementsFrom element read s = .ok (as, r)) : r.length ≤ s.length := by
  fun_induction elementsFrom element read s with
  | case1 | case2 => cases h
  | case3 =>
    cases h
    exact Nat.le_trans (Nat.le_of_lt (nextElement_length_lt ‹nextElement _ = _›))
      (element.shrinks ‹element.run _ = _›)
  | case4 =>
    rename_i ih
    exact Nat.le_trans (ih h) (Nat.le_trans
      (Nat.le_of_lt (nextElement_length_lt ‹nextElement _ = _›))
      (element.shrinks ‹element.run _ = _›))

namespace Reader

variable {α σ : Type}

/-- The elements of a list up to its end, behind its opening bracket. -/
def elements (element : Reader α) : Reader (List α) := ⟨fun s =>
    match firstElement s with
    | .error fault => .error fault
    | .ok (.done r) => .ok ([], r)
    | .ok (.more r) => elementsFrom element [] r, by
  intro s as r h
  split at h
  · cases h
  · rename_i hf
    cases h
    exact firstElement_length_le hf
  · rename_i hf
    exact Nat.le_trans (elementsFrom_length_le h) (firstElement_length_le hf)⟩

/-- The elements of a list up to its end, behind one of its elements. -/
def moreElements (element : Reader α) : Reader (List α) := ⟨fun s =>
    match nextElement s with
    | .error fault => .error fault
    | .ok (.done r) => .ok ([], r)
    | .ok (.more r) => elementsFrom element [] r, by
  intro s as r h
  split at h
  · cases h
  · rename_i hf
    cases h
    exact Nat.le_of_lt (nextElement_length_lt hf)
  · rename_i hf
    exact Nat.le_trans (elementsFrom_length_le h) (Nat.le_of_lt (nextElement_length_lt hf))⟩

/-- One element of a list, if there is one more; otherwise the end stays where it is. -/
def element? (isFirst : Bool) (element : Reader α) : Reader (Option α) := ⟨fun s =>
    match if isFirst then firstElement s else nextElement s with
    | .error fault => .error fault
    | .ok (.done _) => .ok (none, s)
    | .ok (.more r) =>
      match element.run r with
      | .error fault => .error fault
      | .ok (a, r') => .ok (some a, r'), by
  intro s a r h
  split at h
  · cases h
  · cases h
    exact Nat.le_refl _
  · rename_i r' hf
    have hle : r'.length ≤ s.length := by
      cases isFirst
      · exact Nat.le_of_lt (nextElement_length_lt hf)
      · exact firstElement_length_le hf
    split at h
    · cases h
    · rename_i he
      cases h
      exact Nat.le_trans (element.shrinks he) hle⟩

/-- The end of a list. -/
def endList : Reader Unit := do
  match ← peek with
  | none => fail .endInList
  | some ']' => advance
  | some ',' =>
    advance
    fail (if (← peek) = some ']' then .trailingComma else .trailingCharacters)
  | some _ => fail .trailingCharacters

/-- The colon behind a key. -/
def colon : Reader Unit := do
  match ← peek with
  | none => fail .endInObject
  | some ':' => advance
  | some _ => fail .expectedColon

end Reader

/-- The members of an object from the one whose key starts here. A reader for each key takes the
rest of the member, and brings what was gathered up to date. -/
def membersFrom {σ : Type} (member : String → σ → Reader σ) (gathered : σ) (s : Bytes) :
    Except Fault (σ × Bytes) :=
  match _hk : Text.reader.run s with
  | .error fault => .error fault
  | .ok (key, r) =>
    match _hm : (member key gathered).run r with
    | .error fault => .error fault
    | .ok (gathered, r') =>
      match _hn : nextKey r' with
      | .error fault => .error fault
      | .ok (.done r'') => .ok (gathered, r'')
      | .ok (.more r'') => membersFrom member gathered r''
termination_by s.length
decreasing_by
  exact Nat.lt_of_lt_of_le (nextKey_length_lt ‹nextKey _ = _›)
    (Nat.le_trans ((member _ _).shrinks ‹(member _ _).run _ = _›)
      (Text.reader.shrinks ‹Text.reader.run _ = _›))

theorem membersFrom_length_le {σ : Type} {member : String → σ → Reader σ} {a b : σ} {s r : Bytes}
    (h : membersFrom member a s = .ok (b, r)) : r.length ≤ s.length := by
  fun_induction membersFrom member a s with
  | case1 | case2 | case3 => cases h
  | case4 =>
    cases h
    exact Nat.le_trans (Nat.le_of_lt (nextKey_length_lt ‹nextKey _ = _›))
      (Nat.le_trans ((member _ _).shrinks ‹(member _ _).run _ = _›)
        (Text.reader.shrinks ‹Text.reader.run _ = _›))
  | case5 =>
    rename_i ih
    exact Nat.le_trans (ih h) (Nat.le_trans (Nat.le_of_lt (nextKey_length_lt ‹nextKey _ = _›))
      (Nat.le_trans ((member _ _).shrinks ‹(member _ _).run _ = _›)
        (Text.reader.shrinks ‹Text.reader.run _ = _›)))

namespace Reader

variable {σ : Type}

/-- The members of an object up to its end, behind its opening bracket. -/
def members (member : String → σ → Reader σ) (gathered : σ) : Reader σ := ⟨fun s =>
    match firstKey s with
    | .error fault => .error fault
    | .ok (.done r) => .ok (gathered, r)
    | .ok (.more r) => membersFrom member gathered r, by
  intro s a r h
  split at h
  · cases h
  · rename_i hf
    cases h
    exact Nat.le_of_lt (firstKey_length_lt hf)
  · rename_i hf
    exact Nat.le_trans (membersFrom_length_le h) (Nat.le_of_lt (firstKey_length_lt hf))⟩

end Reader

end Linearizability.Json
