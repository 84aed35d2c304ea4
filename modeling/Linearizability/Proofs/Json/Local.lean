import Linearizability.Proofs.Json.Cut

/-! # Values stand on their own

What a reader takes off a text it also takes where the text goes on, unless the text ends in a
number that could go on. So a value that is read from a text of its own is read wherever that text
stands.
-/

namespace Linearizability.Json

open Reader

section Local

variable {α β σ : Type} {x : Reader α} {f : α → Reader β} {s t r : Bytes} {b : UInt8}

/-- What the reader takes off this text it also takes where something follows. -/
def LocalAt (x : Reader α) (s : Bytes) : Prop :=
  ∀ a r t, x.run s = .ok (a, r) → (r = [] → Apart t) → x.run (s ++ t) = .ok (a, r ++ t)

def Local (x : Reader α) : Prop := ∀ s, LocalAt x s

theorem local_pure (a : α) : Local (pure a : Reader α) := by
  intro s a' r t h _
  cases h
  rfl

theorem localAt_of_error {fault : Fault} (h : x.run s = .error fault) : LocalAt x s := by
  intro a r t hx
  cases h.symm.trans hx

theorem local_fail (fault : Fault) : Local (fail fault : Reader α) :=
  fun _ => localAt_of_error rfl

theorem local_lift (found : Except Fault α) : Local (Reader.lift found) := by
  cases found with
  | error fault => exact local_fail fault
  | ok a => exact local_pure a

theorem LocalAt.bind (hx : LocalAt x s)
    (hf : ∀ a u, x.run s = .ok (a, u) → LocalAt (f a) u) : LocalAt (x >>= f) s := by
  intro b r t h hr
  obtain ⟨a, u, ha, hb⟩ := run_bind_eq_ok_iff.mp h
  have hu : u = [] → Apart t := by
    rintro rfl
    exact hr (List.length_eq_zero_iff.mp (Nat.le_zero.mp ((f a).shrinks hb)))
  rw [run_bind (hx a u t ha hu)]
  exact hf a u ha b r t hb hr

theorem Local.bind (hx : Local x) (hf : ∀ a, Local (f a)) : Local (x >>= f) :=
  fun s => (hx s).bind fun a u _ => hf a u

theorem Local.map (g : α → β) (hx : Local x) : Local (g <$> x) :=
  hx.bind fun a => local_pure (g a)

theorem local_of_online (h : Online x) : Local x := by
  intro s a r t hx _
  rcases h s with ⟨fault, he, _⟩ | hu
  · cases hx.symm.trans he
  · rw [hu t, hx]
    rfl

theorem localAt_advance (b : UInt8) (s : Bytes) : LocalAt advance (b :: s) := by
  intro a r t h _
  cases h
  rfl

theorem localAt_glance (b : UInt8) (s : Bytes) : LocalAt glance (b :: s) := by
  intro a r t h _
  cases h
  rfl

theorem localAt_advance_bind {f : Unit → Reader β} (hf : Local (f ())) (b : UInt8) (s : Bytes) :
    LocalAt (advance >>= f) (b :: s) :=
  (localAt_advance b s).bind fun _ u _ => hf u

theorem dropBlank_append_of_cons (h : dropBlank s = b :: r) (t : Bytes) :
    dropBlank (s ++ t) = b :: (r ++ t) := by
  induction s with
  | nil => cases h
  | cons c s ih =>
    rw [dropBlank, List.dropWhile_cons, ← dropBlank] at h
    rw [List.cons_append, dropBlank, List.dropWhile_cons, ← dropBlank]
    split
    · rename_i hc
      rw [if_pos hc] at h
      exact ih h
    · rename_i hc
      rw [if_neg hc] at h
      cases h
      rfl

theorem run_peek_of_dropBlank (h : dropBlank s = b :: r) :
    peek.run s = .ok (some (Char.ofUInt8 b), b :: r) := by
  have hb : blank.run s = .ok ((), b :: r) := congrArg (Except.ok ∘ Prod.mk ()) h
  exact run_bind hb

theorem run_peek_of_nil (h : dropBlank s = []) : peek.run s = .ok (none, []) := by
  have hb : blank.run s = .ok ((), []) := congrArg (Except.ok ∘ Prod.mk ()) h
  exact run_bind hb

theorem local_peek_bind {f : Option Char → Reader β} (fault : Fault) (hn : f none = fail fault)
    (hf : ∀ b s, LocalAt (f (some (Char.ofUInt8 b))) (b :: s)) : Local (peek >>= f) := by
  intro s
  cases hs : dropBlank s with
  | nil =>
    have he : (peek >>= f).run s = .error fault := by
      rw [run_bind (run_peek_of_nil hs), hn]
      rfl
    exact localAt_of_error he
  | cons b r =>
    refine LocalAt.bind ?_ fun c u hc => ?_
    · intro c u t hc _
      rw [run_peek_of_dropBlank hs] at hc
      cases hc
      exact run_peek_of_dropBlank (dropBlank_append_of_cons hs t)
    · rw [run_peek_of_dropBlank hs] at hc
      cases hc
      exact hf b r

end Local

namespace Literal

variable {s : Bytes}

theorem takeWhile_dropWhile_append {s t : Bytes} (h : s.dropWhile isDigit = [] → NoDigit t) :
    (s ++ t).takeWhile isDigit = s.takeWhile isDigit ∧
      (s ++ t).dropWhile isDigit = s.dropWhile isDigit ++ t := by
  induction s with
  | nil =>
    cases t with
    | nil => exact ⟨rfl, rfl⟩
    | cons b t => simp [h rfl b rfl]
  | cons b s ih =>
    by_cases hb : isDigit b = true
    · simp only [List.cons_append, List.takeWhile_cons, List.dropWhile_cons, hb, if_true] at h ⊢
      obtain ⟨htake, hdrop⟩ := ih h
      exact ⟨by rw [htake], hdrop⟩
    · simp [hb]

theorem local_digits : Local digits := by
  intro s ds r t h hr
  obtain ⟨hds, rfl⟩ := Prod.mk.inj (Except.ok.inj h)
  obtain ⟨htake, hdrop⟩ := takeWhile_dropWhile_append fun hn => noDigit_of_apart (hr hn)
  rw [digits]
  simp only [htake, hdrop, hds]

theorem local_someDigits (unfinished : Fault) : Local (someDigits unfinished) := by
  refine fun s => (local_digits s).bind fun ds u _ => ?_
  cases ds with
  | nil => exact localAt_of_error rfl
  | cons d ds => exact local_pure _ u

theorem local_wholeDigits (unfinished : Fault) : Local (wholeDigits unfinished) := by
  refine (local_someDigits unfinished).bind fun ds => ?_
  split
  · exact local_fail _
  · exact local_pure _

theorem localAt_sign (allowed : Bool) (b : UInt8) (s : Bytes) :
    LocalAt (sign allowed) (b :: s) := by
  refine (localAt_glance b s).bind fun c u hc => ?_
  cases hc
  split
  · exact localAt_advance_bind (local_pure true) b s
  · cases allowed with
    | true => exact localAt_advance_bind (local_pure false) b s
    | false => exact local_pure false (b :: s)
  · exact local_pure false (b :: s)

theorem local_fractionDigits (unfinished : Fault) : Local (fractionDigits unfinished) := by
  rintro (_ | ⟨b, s⟩)
  · intro a r t h hr
    obtain ⟨rfl, rfl⟩ := Prod.mk.inj (Except.ok.inj h)
    exact run_fractionDigits .absent (noDigit_of_apart (hr rfl))
      (head_ne_of_apart (hr rfl) (by decide)) unfinished
  · refine (localAt_glance b s).bind fun c u hc => ?_
    cases hc
    split
    · exact localAt_advance_bind ((local_someDigits unfinished).map some) b s
    · exact local_pure none (b :: s)

theorem local_exponentDigits (unfinished : Fault) : Local (exponentDigits unfinished) := by
  -- behind the sign there is no digit if there is nothing
  have hsigned : Local (sign true >>= fun negative => someDigits unfinished >>= fun ds =>
      pure (some (negative, ds))) := by
    rintro (_ | ⟨b, s⟩)
    · exact localAt_of_error rfl
    · exact (localAt_sign true b s).bind fun negative u _ =>
        (local_someDigits unfinished).bind (fun ds => local_pure _) u
  rintro (_ | ⟨b, s⟩)
  · intro a r t h hr
    obtain ⟨rfl, rfl⟩ := Prod.mk.inj (Except.ok.inj h)
    exact run_exponentDigits .absent (hr rfl) unfinished
  · refine (localAt_glance b s).bind fun c u hc => ?_
    cases hc
    split
    · exact localAt_advance_bind hsigned b s
    · exact localAt_advance_bind hsigned b s
    · exact local_pure none (b :: s)

theorem local_reader (unfinished : Fault) : Local (Literal.reader unfinished) := by
  rintro (_ | ⟨b, s⟩)
  · exact localAt_of_error rfl
  · exact (localAt_sign false b s).bind fun negative u _ =>
      (local_wholeDigits unfinished).bind (fun whole =>
        (local_fractionDigits unfinished).bind fun fraction =>
          (local_exponentDigits unfinished).bind fun exponent => local_pure _) u

end Literal

/-! ## Values -/

section Value

variable {α σ : Type} {s t r : Bytes} {b : UInt8}

theorem local_colon : Local colon := by
  refine local_peek_bind .endInObject rfl fun b s => ?_
  split
  · rename_i h
    cases h
  · exact localAt_advance b s
  · exact local_fail _ (b :: s)

theorem local_number : Local Number.reader :=
  (Literal.local_reader .endInValue).bind fun literal => local_lift literal.value

theorem run_text_append {key : String} (h : Text.reader.run s = .ok (key, r)) (t : Bytes) :
    Text.reader.run (s ++ t) = .ok (key, r ++ t) := by
  rcases Text.online_reader s with ⟨fault, he, _⟩ | hu
  · cases h.symm.trans he
  · rw [hu t, h]
    rfl

theorem local_text : Local Text.reader := fun _ _ _ t h _ => run_text_append h t

theorem local_word (ending other : Fault) (h : ending.category = .ending) (cs : List Char) :
    Local (word ending other cs) :=
  local_of_online (online_word h other cs)

theorem local_head : Local head := by
  have hword : ∀ cs, Local (word .endInValue .expectedIdent cs) := local_word _ _ rfl
  refine local_peek_bind .endInValue rfl fun b s => ?_
  split
  · rename_i h
    cases h
  · exact (hword _).bind (fun _ => local_pure _) (b :: s)
  · exact (hword _).bind (fun _ => local_pure _) (b :: s)
  · exact (hword _).bind (fun _ => local_pure _) (b :: s)
  · exact localAt_advance_bind (local_text.map Head.text) b s
  · exact localAt_advance_bind (local_pure Head.list) b s
  · exact localAt_advance_bind (local_pure Head.object) b s
  · split
    · exact local_number.map Head.number (b :: s)
    · exact local_fail _ (b :: s)

def Next.append (t : Bytes) : Next → Next
  | more r => .more (r ++ t)
  | done r => .done (r ++ t)

variable {next : Next}

theorem firstElement_append (h : firstElement s = .ok next) (t : Bytes) :
    firstElement (s ++ t) = .ok (next.append t) := by
  rw [firstElement] at h ⊢
  cases hs : dropBlank s with
  | nil => simp [hs] at h
  | cons b r =>
    rw [dropBlank_append_of_cons hs]
    simp only [hs] at h
    grind [Next.append]

theorem nextElement_append (h : nextElement s = .ok next) (t : Bytes) :
    nextElement (s ++ t) = .ok (next.append t) := by
  rw [nextElement] at h ⊢
  cases hs : dropBlank s with
  | nil => simp [hs] at h
  | cons b r =>
    rw [dropBlank_append_of_cons hs]
    simp only [hs] at h
    cases hr : dropBlank r with
    | nil => grind [Next.append]
    | cons c q =>
      have := dropBlank_append_of_cons hr t
      grind [Next.append]

theorem firstKey_append (h : firstKey s = .ok next) (t : Bytes) :
    firstKey (s ++ t) = .ok (next.append t) := by
  rw [firstKey] at h ⊢
  cases hs : dropBlank s with
  | nil => simp [hs] at h
  | cons b r =>
    rw [dropBlank_append_of_cons hs]
    simp only [hs] at h
    grind [Next.append]

theorem nextKey_append (h : nextKey s = .ok next) (t : Bytes) :
    nextKey (s ++ t) = .ok (next.append t) := by
  rw [nextKey] at h ⊢
  cases hs : dropBlank s with
  | nil => simp [hs] at h
  | cons b r =>
    rw [dropBlank_append_of_cons hs]
    simp only [hs] at h
    cases hr : dropBlank r with
    | nil => grind [Next.append]
    | cons c q =>
      have := dropBlank_append_of_cons hr t
      grind [Next.append]

theorem localAt_elementsFrom {x : Reader α} (hx : Local x) {read as : List α}
    (h : elementsFrom x read s = .ok (as, r)) (t : Bytes) :
    elementsFrom x read (s ++ t) = .ok (as, r ++ t) := by
  have happly : ∀ {s a u next}, x.run s = .ok (a, u) → nextElement u = .ok next →
      x.run (s ++ t) = .ok (a, u ++ t) := by
    intro s a u next ha hn
    refine hx s a u t ha ?_
    rintro rfl
    cases hn
  fun_induction elementsFrom x read s with
  | case1 | case2 => cases h
  | case3 read s a u ha r' hn =>
    cases h
    rw [elementsFrom_eq (happly ha hn), nextElement_append hn]
    rfl
  | case4 read s a u ha r' hn ih =>
    rw [elementsFrom_eq (happly ha hn), nextElement_append hn]
    exact ih h

theorem local_elements {x : Reader α} (hx : Local x) : Local (elements x) := by
  intro s as r t h _
  rw [run_elements] at h ⊢
  cases hf : firstElement s with
  | error fault => simp [hf] at h
  | ok next =>
    rw [firstElement_append hf]
    rw [hf] at h
    cases next with
    | done u =>
      cases h
      rfl
    | more u => exact localAt_elementsFrom hx h t

theorem localAt_membersFrom {member : String → σ → Reader σ} (hm : ∀ key g, Local (member key g))
    {g g' : σ} (h : membersFrom member g s = .ok (g', r)) (t : Bytes) :
    membersFrom member g (s ++ t) = .ok (g', r ++ t) := by
  have happly : ∀ {key g u g' v next}, (member key g).run u = .ok (g', v) → nextKey v = .ok next →
      (member key g).run (u ++ t) = .ok (g', v ++ t) := by
    intro key g u g' v next ha hn
    refine hm key g u g' v t ha ?_
    rintro rfl
    cases hn
  fun_induction membersFrom member g s with
  | case1 | case2 | case3 => cases h
  | case4 g s key u hk g' v ha r' hn =>
    cases h
    rw [membersFrom_eq (run_text_append hk t) (happly ha hn), nextKey_append hn]
    rfl
  | case5 g s key u hk g' v ha r' hn ih =>
    rw [membersFrom_eq (run_text_append hk t) (happly ha hn), nextKey_append hn]
    exact ih h

theorem local_members {member : String → σ → Reader σ} (hm : ∀ key g, Local (member key g))
    (g : σ) : Local (members member g) := by
  intro s g' r t h _
  rw [run_members] at h ⊢
  cases hf : firstKey s with
  | error fault => simp [hf] at h
  | ok next =>
    rw [firstKey_append hf]
    rw [hf] at h
    cases next with
    | done u =>
      cases h
      rfl
    | more u => exact localAt_membersFrom hm h t

theorem local_value (depth : Nat) : Local (value depth) := by
  induction depth with
  | zero =>
    refine local_head.bind fun front => ?_
    cases front with
    | list | object => exact local_fail _
    | null | flag | number | text => exact local_pure _
  | succ depth ih =>
    refine local_head.bind fun front => ?_
    cases front with
    | list => exact (local_elements ih).map Value.list
    | object =>
      refine (local_members (fun key read => ?_) []).bind fun read => local_pure _
      exact local_colon.bind fun _ => ih.bind fun v => local_pure _
    | null | flag | number | text => exact local_pure _

end Value

end Linearizability.Json
