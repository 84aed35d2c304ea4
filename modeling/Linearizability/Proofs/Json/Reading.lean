import Linearizability.Json.Decoder

/-! # Reading what is there

A reader takes a text off the front of another one. A number ends only where something follows
that is no part of it, so what follows a text has to stand apart. Blanks may stand in front of a
value, and between the parts of a list or an object.
-/

namespace Linearizability.Json

namespace Reader

variable {α β : Type} {x : Reader α} {f : α → Reader β} {a : α} {b : β} {s t u r rest ws : Bytes}

def Blank (ws : Bytes) : Prop := ∀ b ∈ ws, isBlank b = true

/-- No number goes on here. -/
def Apart (rest : Bytes) : Prop := ∀ b, rest.head? = some b → isDigit b = false ∧ b ∉ [46, 69, 101]

/-- The reader finds a value in a text and leaves what follows. -/
def Takes (x : Reader α) (text : Bytes) (a : α) : Prop :=
  ∀ rest, Apart rest → x.run (text ++ rest) = .ok (a, rest)

/-- The reader finds a value in a text, also behind blanks. -/
def Reads (x : Reader α) (text : Bytes) (a : α) : Prop :=
  ∀ ws, Blank ws → Takes x (ws ++ text) a

/-- A text starts with a byte that is neither blank nor a closing bracket. -/
def Solid (text : Bytes) : Prop := ∃ b r, text = b :: r ∧ isBlank b = false ∧ b ≠ 93

theorem blank_nil : Blank [] := by simp [Blank]

theorem apart_nil : Apart [] := by simp [Apart]

theorem Apart.append (hu : Apart u) (hr : Apart rest) : Apart (u ++ rest) := by
  cases u with
  | nil => exact hr
  | cons b u => exact hu

theorem apart_of_blank (h : Blank ws) : Apart ws := by
  intro b hb
  have hw := h b (List.mem_of_head? hb)
  simp only [isBlank, Bool.or_eq_true, beq_iff_eq] at hw
  rcases hw with ((rfl | rfl) | rfl) | rfl <;> decide

theorem apart_append_cons {b : UInt8} (h : Blank ws) (hb : isDigit b = false ∧ b ∉ [46, 69, 101])
    (r : Bytes) : Apart (ws ++ b :: r) :=
  (apart_of_blank h).append fun c hc => by
    obtain rfl : b = c := by simpa using hc
    exact hb

theorem Solid.append (h : Solid t) (u : Bytes) : Solid (t ++ u) := by
  obtain ⟨b, r, rfl, hb, hne⟩ := h
  exact ⟨b, r ++ u, rfl, hb, hne⟩

theorem dropBlank_append (h : Blank ws) (s : Bytes) : dropBlank (ws ++ s) = dropBlank s :=
  List.dropWhile_append_of_pos h

theorem dropBlank_cons {b : UInt8} (h : isBlank b = false) : dropBlank (b :: r) = b :: r :=
  List.dropWhile_cons_of_neg (by simp [h])

theorem dropBlank_append_cons {b : UInt8} (h : Blank ws) (hb : isBlank b = false) (r : Bytes) :
    dropBlank (ws ++ b :: r) = b :: r := by
  rw [dropBlank_append h, dropBlank_cons hb]

@[simp] theorem run_pure (a : α) (s : Bytes) : (pure a : Reader α).run s = .ok (a, s) := rfl

theorem run_bind (h : x.run s = .ok (a, r)) : (x >>= f).run s = (f a).run r := by
  simp [bind, h]

theorem run_bind_error {fault : Fault} (h : x.run s = .error fault) :
    (x >>= f).run s = .error fault := by
  simp [bind, h]

theorem run_bind_eq_ok_iff : (x >>= f).run s = .ok (b, r) ↔
    ∃ a u, x.run s = .ok (a, u) ∧ (f a).run u = .ok (b, r) := by
  cases hx : x.run s with
  | error fault => simp [run_bind_error hx]
  | ok found =>
    obtain ⟨a, u⟩ := found
    rw [run_bind hx]
    constructor
    · exact fun hf => ⟨a, u, rfl, hf⟩
    · rintro ⟨_, _, ⟨⟩, hf⟩
      exact hf

theorem run_map_eq_ok_iff {g : α → β} : (g <$> x).run s = .ok (b, r) ↔
    ∃ a, x.run s = .ok (a, r) ∧ g a = b := by
  refine run_bind_eq_ok_iff.trans ⟨?_, ?_⟩
  · rintro ⟨a, u, hx, hg⟩
    obtain ⟨rfl, rfl⟩ := Prod.mk.inj (Except.ok.inj hg)
    exact ⟨a, hx, rfl⟩
  · rintro ⟨a, hx, rfl⟩
    exact ⟨a, r, hx, rfl⟩

theorem run_glance (s : Bytes) : glance.run s = .ok (s.head?.map Char.ofUInt8, s) := rfl

theorem run_take (b : UInt8) (s : Bytes) : take.run (b :: s) = .ok (some (Char.ofUInt8 b), s) := rfl

theorem run_map (g : α → β) (h : x.run s = .ok (a, r)) : (g <$> x).run s = .ok (g a, r) :=
  run_bind h

theorem run_map_error {fault : Fault} (g : α → β) (h : x.run s = .error fault) :
    (g <$> x).run s = .error fault :=
  run_bind_error h

theorem run_peek {b : UInt8} (h : Blank ws) (hb : isBlank b = false) (r : Bytes) :
    peek.run (ws ++ b :: r) = .ok (some (Char.ofUInt8 b), b :: r) := by
  have hr : blank.run (ws ++ b :: r) = .ok ((), b :: r) :=
    congrArg (Except.ok ∘ Prod.mk ()) (dropBlank_append_cons h hb r)
  exact run_bind hr

theorem Takes.bind_pure (hx : Takes x t a) (hf : f a = pure b) : Takes (x >>= f) t b := by
  intro rest hr
  rw [run_bind (hx rest hr), hf, run_pure]

theorem Takes.map (g : α → β) (h : Takes x t a) : Takes (g <$> x) t (g a) :=
  fun rest hr => run_map g (h rest hr)

namespace Reads

theorem takes (h : Reads x t a) : Takes x t a := h [] blank_nil

theorem bind_pure (hx : Reads x t a) (hf : f a = pure b) : Reads (x >>= f) t b :=
  fun ws hws => (hx ws hws).bind_pure hf

theorem map (g : α → β) (h : Reads x t a) : Reads (g <$> x) t (g a) :=
  fun ws hws => (h ws hws).map g

end Reads

theorem run_colon (h : Blank ws) (s : Bytes) : colon.run (ws ++ 58 :: s) = .ok ((), s) := by
  rw [colon, run_bind (run_peek h rfl s)]
  rfl

theorem takes_colon_bind {f : Unit → Reader α} (h : Reads (f ()) t a) (hws : Blank ws) :
    Takes (colon >>= f) (58 :: (ws ++ t)) a := by
  intro rest hr
  exact (run_bind (run_colon blank_nil _)).trans (h ws hws rest hr)

end Reader

open Reader

section Elements

variable {α : Type} {x : Reader α} {a : α} {as read : List α} {s t u r r' ws ws' rest : Bytes}

inductive Elements (x : Reader α) : Bytes → List α → Prop where
  | last {t ws : Bytes} {a : α} (solid : Solid t) (element : Takes x t a) (blank : Blank ws) :
    Elements x (t ++ (ws ++ [93])) [a]
  | more {t ws ws' u : Bytes} {a : α} {as : List α} (solid : Solid t) (element : Takes x t a)
      (blank : Blank ws) (blank' : Blank ws') (others : Elements x u as) :
    Elements x (t ++ (ws ++ 44 :: (ws' ++ u))) (a :: as)

theorem Elements.solid (h : Elements x t as) : Solid t := by
  cases h with
  | last solid | more solid => exact solid.append _

theorem nextElement_end (h : Blank ws) (rest : Bytes) :
    nextElement (ws ++ 93 :: rest) = .ok (.done rest) := by
  rw [nextElement, dropBlank_append_cons h rfl]
  rfl

theorem nextElement_more (h : Blank ws) (h' : Blank ws') (hs : Solid t) :
    nextElement (ws ++ 44 :: (ws' ++ t)) = .ok (.more t) := by
  obtain ⟨b, r, rfl, hb, hne⟩ := hs
  rw [nextElement, dropBlank_append_cons h rfl]
  simp [dropBlank_append_cons h' hb, hne]

theorem elementsFrom_eq (he : x.run s = .ok (a, r)) :
    elementsFrom x read s = match nextElement r with
      | .error fault => .error fault
      | .ok (.done r') => .ok ((a :: read).reverse, r')
      | .ok (.more r') => elementsFrom x (a :: read) r' := by
  rw [elementsFrom]
  split
  · rename_i h
    cases he.symm.trans h
  · rename_i h
    cases he.symm.trans h
    split <;> rename_i hn <;> rw [hn]

theorem Elements.run (h : Elements x t as) (read : List α) (rest : Bytes) :
    elementsFrom x read (t ++ rest) = .ok (read.reverse ++ as, rest) := by
  induction h generalizing read with
  | @last t ws a solid element blank =>
    have he : x.run (t ++ (ws ++ [93]) ++ rest) = .ok (a, ws ++ 93 :: rest) := by
      simpa using element (ws ++ 93 :: rest) (apart_append_cons blank (by decide) _)
    rw [elementsFrom_eq he, nextElement_end blank]
    simp
  | @more t ws ws' u a as solid element blank blank' others ih =>
    have he : x.run (t ++ (ws ++ 44 :: (ws' ++ u)) ++ rest) =
        .ok (a, ws ++ 44 :: (ws' ++ (u ++ rest))) := by
      simpa using element (ws ++ 44 :: (ws' ++ (u ++ rest)))
        (apart_append_cons blank (by decide) _)
    rw [elementsFrom_eq he, nextElement_more blank blank' (others.solid.append rest)]
    simp [ih]

theorem run_elements (x : Reader α) (s : Bytes) :
    (elements x).run s = match firstElement s with
      | .error fault => .error fault
      | .ok (.done r) => .ok ([], r)
      | .ok (.more r) => elementsFrom x [] r := rfl

theorem takes_elements_nil (x : Reader α) (h : Blank ws) : Takes (elements x) (ws ++ [93]) [] := by
  intro rest _
  have hf : firstElement (ws ++ [93] ++ rest) = .ok (.done rest) := by
    rw [firstElement, List.append_assoc, List.singleton_append, dropBlank_append_cons h rfl]
    rfl
  rw [run_elements, hf]

theorem Elements.takes (h : Elements x t as) (hb : Blank ws) : Takes (elements x) (ws ++ t) as := by
  intro rest _
  have hf : firstElement (ws ++ t ++ rest) = .ok (.more (t ++ rest)) := by
    obtain ⟨b, r, heq, hb', hne⟩ := h.solid.append rest
    rw [firstElement, List.append_assoc, heq, dropBlank_append_cons hb hb']
    simp [hne]
  rw [run_elements, hf]
  exact h.run [] rest

end Elements

section Members

variable {σ : Type} {member : String → σ → Reader σ} {key : String} {g g' : σ}
  {s t u r r' ws ws' rest : Bytes}

/-- A text holds the members of an object from behind the opening quotation mark of the first key
to the closing brace, and reading them brings what was gathered from one state to another. -/
inductive Members (member : String → σ → Reader σ) : Bytes → σ → σ → Prop where
  | last {t u ws : Bytes} {key : String} {g g' : σ} (name : Takes Text.reader t key)
      (value : Takes (member key g) u g') (apart : Apart u) (blank : Blank ws) :
    Members member (t ++ (u ++ (ws ++ [125]))) g g'
  | more {t u ws ws' v : Bytes} {key : String} {g g' g'' : σ} (name : Takes Text.reader t key)
      (value : Takes (member key g) u g') (apart : Apart u) (blank : Blank ws)
      (blank' : Blank ws') (others : Members member v g' g'') :
    Members member (t ++ (u ++ (ws ++ 44 :: (ws' ++ 34 :: v)))) g g''

theorem nextKey_end (h : Blank ws) (rest : Bytes) :
    nextKey (ws ++ 125 :: rest) = .ok (.done rest) := by
  rw [nextKey, dropBlank_append_cons h rfl]
  rfl

theorem nextKey_more (h : Blank ws) (h' : Blank ws') (t : Bytes) :
    nextKey (ws ++ 44 :: (ws' ++ 34 :: t)) = .ok (.more t) := by
  rw [nextKey, dropBlank_append_cons h rfl]
  simp [dropBlank_append_cons h' (b := 34) rfl]

theorem membersFrom_eq (hk : Text.reader.run s = .ok (key, r))
    (hm : (member key g).run r = .ok (g', r')) :
    membersFrom member g s = match nextKey r' with
      | .error fault => .error fault
      | .ok (.done t) => .ok (g', t)
      | .ok (.more t) => membersFrom member g' t := by
  rw [membersFrom]
  split
  · rename_i h
    cases hk.symm.trans h
  · rename_i h
    cases hk.symm.trans h
    split
    · rename_i h
      cases hm.symm.trans h
    · rename_i h
      cases hm.symm.trans h
      split <;> rename_i hn <;> rw [hn]

theorem Members.run (h : Members member t g g') (rest : Bytes) :
    membersFrom member g (t ++ rest) = .ok (g', rest) := by
  induction h with
  | @last t u ws key g g' name value apart blank =>
    have ha : Apart (ws ++ 125 :: rest) := apart_append_cons blank (by decide) _
    have hk := name (u ++ (ws ++ 125 :: rest)) (apart.append ha)
    simp only [List.append_assoc, List.cons_append, List.nil_append]
    rw [membersFrom_eq hk (value _ ha), nextKey_end blank]
  | @more t u ws ws' v key g g' g'' name value apart blank blank' others ih =>
    have ha : Apart (ws ++ 44 :: (ws' ++ 34 :: (v ++ rest))) :=
      apart_append_cons blank (by decide) _
    have hk := name (u ++ (ws ++ 44 :: (ws' ++ 34 :: (v ++ rest)))) (apart.append ha)
    simp only [List.append_assoc, List.cons_append]
    rw [membersFrom_eq hk (value _ ha), nextKey_more blank blank']
    exact ih

theorem run_members (member : String → σ → Reader σ) (g : σ) (s : Bytes) :
    (members member g).run s = match firstKey s with
      | .error fault => .error fault
      | .ok (.done r) => .ok (g, r)
      | .ok (.more r) => membersFrom member g r := rfl

theorem takes_members_nil (member : String → σ → Reader σ) (g : σ) (h : Blank ws) :
    Takes (members member g) (ws ++ [125]) g := by
  intro rest _
  have hf : firstKey (ws ++ [125] ++ rest) = .ok (.done rest) := by
    rw [firstKey, List.append_assoc, List.singleton_append, dropBlank_append_cons h rfl]
    rfl
  rw [run_members, hf]

theorem Members.takes (h : Members member t g g') (hb : Blank ws) :
    Takes (members member g) (ws ++ 34 :: t) g' := by
  intro rest _
  have hf : firstKey (ws ++ 34 :: t ++ rest) = .ok (.more (t ++ rest)) := by
    rw [firstKey, List.append_assoc, List.cons_append, dropBlank_append_cons hb rfl]
    rfl
  rw [run_members, hf]
  exact h.run rest

end Members

end Linearizability.Json
