import Linearizability.Proofs.Json.Local
import Mathlib.Data.List.Basic

/-! # Skipping values

Skipping goes on bracket by bracket. It goes the same way wherever a value stands: in a longer text,
and within brackets that were opened around it. Strings and numbers that can be read can be skipped.
-/

namespace Linearizability.Json

open Reader

namespace Skip

/-! ## One step -/

section Steps

variable (bracket : Bracket) {brackets : List Bracket} {b : UInt8} {s r r' : Bytes}

theorem skip_value_nil (h : dropBlank s = []) : skip .value brackets s = .error .endInValue := by
  rw [skip]
  split <;> rename_i hs <;> cases h.symm.trans hs
  rfl

theorem skip_value_cons (h : dropBlank s = b :: r) : skip .value brackets s =
    if b = 91 then skip (.opened .list) brackets r
    else if b = 123 then skip (.opened .object) brackets r
    else match scalar.run (b :: r) with
      | .error fault => .error fault
      | .ok (_, r') => skip .behind brackets r' := by
  rw [skip]
  split <;> rename_i hs <;> cases h.symm.trans hs
  split
  · rfl
  · split
    · rfl
    · split <;> rename_i hr <;> rw [hr]

theorem skip_list (h : dropBlank s = 91 :: r) :
    skip .value brackets s = skip (.opened .list) brackets r := by
  rw [skip_value_cons h, if_pos rfl]

theorem skip_object (h : dropBlank s = 123 :: r) :
    skip .value brackets s = skip (.opened .object) brackets r := by
  rw [skip_value_cons h, if_neg (by decide), if_pos rfl]

theorem skip_scalar (h : dropBlank s = b :: r) (hl : b ≠ 91) (ho : b ≠ 123)
    (hr : scalar.run (b :: r) = .ok ((), r')) :
    skip .value brackets s = skip .behind brackets r' := by
  rw [skip_value_cons h, if_neg hl, if_neg ho, hr]

theorem skip_opened_closing (h : dropBlank s = bracket.closing :: r) :
    skip (.opened bracket) brackets s = skip .behind brackets r := by
  rw [skip]
  split <;> rename_i hs <;> cases h.symm.trans hs
  rw [if_pos rfl]

theorem skip_opened (h : dropBlank s = b :: r) (hb : b ≠ bracket.closing)
    (hr : (lead bracket).run (b :: r) = .ok ((), r')) :
    skip (.opened bracket) brackets s = skip .value (bracket :: brackets) r' := by
  conv => lhs; rw [skip]
  split <;> rename_i hs <;> cases h.symm.trans hs
  rw [if_neg hb]
  split <;> rename_i hrun <;> cases hr.symm.trans hrun
  rfl

theorem skip_behind_nil (s : Bytes) : skip .behind [] s = .ok s := by
  rw [skip]

theorem skip_behind_closing (h : dropBlank s = bracket.closing :: r) :
    skip .behind (bracket :: brackets) s = skip .behind brackets r := by
  rw [skip]
  split <;> rename_i hs <;> cases h.symm.trans hs
  rw [if_pos rfl]

theorem skip_behind_comma (h : dropBlank s = 44 :: r)
    (hr : (lead bracket).run r = .ok ((), r')) :
    skip .behind (bracket :: brackets) s = skip .value (bracket :: brackets) r' := by
  have hc : 44 ≠ bracket.closing := by cases bracket <;> decide
  conv => lhs; rw [skip]
  split <;> rename_i hs <;> cases h.symm.trans hs
  rw [if_neg hc, if_pos rfl]
  split <;> rename_i hrun <;> cases hr.symm.trans hrun
  rfl

end Steps

end Skip

/-! ## Skipping alone -/

namespace Text

theorem online_skippedEscape : Online skippedEscape := by
  refine online_take_bind (ends_fail rfl []) fun c => ?_
  split
  · rename_i h
    cases h
  · exact online_unit.bind fun _ => online_pure _
  · split
    · exact online_pure _
    · exact online_fail _

theorem online_skip : Online Text.skip :=
  (online_body online_skippedEscape []).bind fun _ => online_pure ()

end Text

namespace Skip

variable {s t r : Bytes}

theorem local_scalar : Local scalar := by
  have hword : ∀ cs, Local (word .endInValue .expectedIdent cs) := local_word _ _ rfl
  refine local_peek_bind .endInValue rfl fun b s => ?_
  split
  · rename_i h
    cases h
  · exact localAt_advance_bind (local_of_online Text.online_skip) b s
  · exact hword _ (b :: s)
  · exact hword _ (b :: s)
  · exact hword _ (b :: s)
  · split
    · exact (Literal.local_reader .invalidNumber).bind (fun _ => local_pure ()) (b :: s)
    · exact local_fail _ (b :: s)

theorem local_key : Local key := by
  refine local_peek_bind .endInObject rfl fun b s => ?_
  split
  · rename_i h
    cases h
  · refine localAt_advance_bind ?_ b s
    exact (local_of_online Text.online_skip).bind fun _ => local_colon
  · exact local_fail _ (b :: s)

theorem local_lead (bracket : Bracket) : Local (lead bracket) := by
  cases bracket with
  | list => exact local_pure ()
  | object => exact local_key

theorem eq_nil_of_skip_nil {stage : Stage} {brackets : List Bracket}
    (h : skip stage brackets [] = .ok r) : r = [] :=
  List.length_eq_zero_iff.mp (Nat.le_zero.mp (length_skip_le h))

/-- Skipping goes the same way where the text goes on. -/
theorem skip_append {stage : Stage} {brackets : List Bracket} (h : skip stage brackets s = .ok r)
    (hr : r = [] → Apart t) : skip stage brackets (s ++ t) = .ok (r ++ t) := by
  fun_induction skip stage brackets s with
  | case1 | case4 | case6 | case8 | case11 | case13 | case15 => cases h
  | case2 brackets s u hs ih => rw [skip_list (dropBlank_append_of_cons hs t), ih h]
  | case3 brackets s u hs _ ih => rw [skip_object (dropBlank_append_of_cons hs t), ih h]
  | case5 brackets s b u hs hl ho _ v hrun ih =>
    have hv : v = [] → Apart t := by
      rintro rfl
      exact hr (eq_nil_of_skip_nil h)
    rw [skip_scalar (dropBlank_append_of_cons hs t) hl ho (local_scalar _ _ _ t hrun hv), ih h]
  | case7 brackets bracket s u hs ih =>
    rw [skip_opened_closing _ (dropBlank_append_of_cons hs t), ih h]
  | case9 brackets s bracket b u hs hc _ v hrun ih =>
    have hv : v = [] → Apart t := by
      rintro rfl
      exact hr (eq_nil_of_skip_nil h)
    rw [skip_opened _ (dropBlank_append_of_cons hs t) hc (local_lead bracket _ _ _ t hrun hv), ih h]
  | case10 =>
    cases h
    rw [skip_behind_nil]
  | case12 s bracket brackets u hs ih =>
    rw [skip_behind_closing _ (dropBlank_append_of_cons hs t), ih h]
  | case14 s bracket brackets u _ v hrun hs hc ih =>
    have hv : v = [] → Apart t := by
      rintro rfl
      exact hr (eq_nil_of_skip_nil h)
    rw [skip_behind_comma _ (dropBlank_append_of_cons hs t) (local_lead bracket _ _ _ t hrun hv),
      ih h]

/-- Brackets that are open around what is skipped are still open behind it. -/
theorem skip_within {stage : Stage} {brackets : List Bracket} (h : skip stage brackets s = .ok r)
    (around : List Bracket) : skip stage (brackets ++ around) s = skip .behind around r := by
  fun_induction skip stage brackets s with
  | case1 | case4 | case6 | case8 | case11 | case13 | case15 => cases h
  | case2 brackets s u hs ih => rw [skip_list hs, ih h]
  | case3 brackets s u hs _ ih => rw [skip_object hs, ih h]
  | case5 brackets s b u hs hl ho _ v hrun ih => rw [skip_scalar hs hl ho hrun, ih h]
  | case7 brackets bracket s u hs ih => rw [skip_opened_closing _ hs, ih h]
  | case9 brackets s bracket b u hs hc _ v hrun ih =>
    rw [skip_opened _ hs hc hrun]
    exact ih h
  | case10 =>
    cases h
    rfl
  | case12 s bracket brackets u hs ih =>
    rw [List.cons_append, skip_behind_closing _ hs, ih h]
  | case14 s bracket brackets u _ v hrun hs hc ih =>
    rw [List.cons_append, skip_behind_comma _ hs hrun]
    exact ih h

theorem run_reader_eq_ok_iff {a : Unit} : Skip.reader.run s = .ok (a, r) ↔
    skip .value [] s = .ok r := by
  cases hs : skip .value [] s <;> simp [reader, hs, Except.map]

end Skip

/-! ## Strings and numbers

What is read as a string or a number is skipped as one.
-/

section Agrees

variable {α β : Type} {x y : Reader α} {f g : α → Reader β}

/-- Whatever one reader takes, the other takes too; they may find different faults. -/
def Agrees (x y : Reader α) : Prop := ∀ s found, x.run s = .ok found → y.run s = .ok found

theorem Agrees.bind (hx : Agrees x y) (hf : ∀ a, Agrees (f a) (g a)) :
    Agrees (x >>= f) (y >>= g) := by
  intro s ⟨b, r⟩ h
  obtain ⟨a, u, ha, hb⟩ := run_bind_eq_ok_iff.mp h
  exact run_bind_eq_ok_iff.mpr ⟨a, u, hx s _ ha, hf a u _ hb⟩

theorem agrees_refl (x : Reader α) : Agrees x x := fun _ _ h => h

theorem agrees_fail (fault : Fault) (y : Reader α) : Agrees (fail fault) y := by
  intro s found h
  cases h

end Agrees

namespace Literal

variable {unfinished unfinished' : Fault}

theorem agrees_someDigits : Agrees (someDigits unfinished) (someDigits unfinished') := by
  refine (agrees_refl digits).bind fun ds => ?_
  cases ds with
  | nil =>
    intro s found h
    cases h
  | cons d ds => exact agrees_refl _

/-- How an unfinished number is reported does not change which numbers there are. -/
theorem agrees_reader : Agrees (Literal.reader unfinished) (Literal.reader unfinished') := by
  refine (agrees_refl _).bind fun negative => ?_
  refine Agrees.bind ?_ fun whole => Agrees.bind ?_ fun fraction => Agrees.bind ?_ fun exponent =>
    agrees_refl _
  · refine agrees_someDigits.bind fun ds => ?_
    split
    · exact agrees_fail _ _
    · exact agrees_refl _
  · refine (agrees_refl glance).bind fun c => ?_
    split
    · exact (agrees_refl advance).bind fun _ => agrees_someDigits.bind fun _ => agrees_refl _
    · exact agrees_refl _
  · refine (agrees_refl glance).bind fun c => ?_
    split
    · exact (agrees_refl advance).bind fun _ => (agrees_refl _).bind fun _ =>
        agrees_someDigits.bind fun _ => agrees_refl _
    · exact (agrees_refl advance).bind fun _ => (agrees_refl _).bind fun _ =>
        agrees_someDigits.bind fun _ => agrees_refl _
    · exact agrees_refl _

end Literal

namespace Text

variable {s r bytes : Bytes}

theorem exists_of_run_word {ending other : Fault} {cs : List Char} {a : Unit}
    (h : (word ending other cs).run s = .ok (a, r)) :
    ∃ bs : Bytes, bs.map Char.ofUInt8 = cs ∧ s = bs ++ r := by
  induction cs generalizing s with
  | nil =>
    cases h
    exact ⟨[], rfl, rfl⟩
  | cons c cs ih =>
    cases s with
    | nil => cases h
    | cons b s =>
      rw [word, run_bind (run_take b s)] at h
      dsimp only at h
      split at h
      · rename_i hc
        obtain ⟨bs, rfl, rfl⟩ := ih h
        exact ⟨b :: bs, by rw [List.map_cons, hc], rfl⟩
      · cases h

theorem ofUInt8_injective : Function.Injective Char.ofUInt8 := fun _ _ => ofUInt8_inj.mp

theorem body_skipped_unit {n : Nat} (h : unit.run s = .ok (n, r)) (read : Bytes) :
    body skippedEscape read (92 :: 117 :: s) = body skippedEscape read r := by
  have hs : skippedEscape.run (117 :: s) = .ok ([], r) := run_bind h
  exact body_escape hs read

/-- An escape that is read is skipped too. A surrogate pair is one escape that is read, and two
that are skipped. -/
theorem body_skipped_of_escape (h : escape.run s = .ok (bytes, r)) (read : Bytes) :
    body skippedEscape read (92 :: s) = body skippedEscape read r := by
  cases s with
  | nil => cases h
  | cons b s =>
    have hletter : ∀ {bs : Bytes}, ∀ c ∈ ['"', '\\', '/', 'b', 'f', 'n', 'r', 't'],
        some (Char.ofUInt8 b) = some c → (pure bs : Reader Bytes).run s = .ok (bytes, r) →
        body skippedEscape read (92 :: b :: s) = body skippedEscape read r := by
      intro bs c hc hb hp
      have hs : skippedEscape.run (b :: s) = .ok ([], s) := by
        rw [skippedEscape, run_bind (run_take b s), hb]
        simp only [List.mem_cons, List.not_mem_nil, or_false] at hc
        rcases hc with rfl | rfl | rfl | rfl | rfl | rfl | rfl | rfl <;> rfl
      cases hp
      exact body_escape hs read
    rw [escape, run_bind (run_take b s)] at h
    split at h <;> rename_i hb
    case h_1 | h_11 => cases h
    case h_10 =>
      obtain rfl : b = 117 := ofUInt8_inj.mp (Option.some.inj hb)
      obtain ⟨high, u, hu, hhigh⟩ := run_bind_eq_ok_iff.mp h
      rw [body_skipped_unit hu]
      split at hhigh
      · cases hhigh
      · split at hhigh
        · obtain ⟨_, v, hv, hlow⟩ := run_bind_eq_ok_iff.mp hhigh
          obtain ⟨low, w, hw, hlow⟩ := run_bind_eq_ok_iff.mp hlow
          obtain ⟨bs, hbs, rfl⟩ := exists_of_run_word hv
          have hpair : bs = [92, 117] := List.map_injective_iff.mpr ofUInt8_injective hbs
          rw [hpair, List.cons_append, List.singleton_append, body_skipped_unit hw]
          split at hlow
          · rw [run_pure] at hlow
            rw [(Prod.mk.inj (Except.ok.inj hlow)).2]
          · cases hlow
        · cases hhigh
          rfl
    all_goals exact hletter _ (by decide) hb h

theorem exists_body_skipped {found : Bytes × Bytes} (h : body escape bytes s = .ok found)
    (read : Bytes) : ∃ read', body skippedEscape read s = .ok (read', found.2) := by
  fun_induction body escape bytes s generalizing read with
  | case1 | case3 | case5 => cases h
  | case2 =>
    cases h
    exact ⟨_, body_mark _ _ _⟩
  | case4 bytes r c r' hrun _ ih =>
    rw [body_skipped_of_escape hrun]
    exact ih h read
  | case6 bytes b r mark backslash control ih =>
    rw [body_plain _ mark backslash control]
    exact ih h (b :: read)

theorem run_skip_of_run_reader {string : String} (h : reader.run s = .ok (string, r)) :
    skip.run s = .ok ((), r) := by
  obtain ⟨bytes, u, hb, h⟩ := run_bind_eq_ok_iff.mp h
  obtain ⟨read, hs⟩ := exists_body_skipped hb []
  have hr : r = u := by
    split at h
    · cases h
    · cases h
      rfl
  rw [hr]
  exact run_bind hs

end Text

end Linearizability.Json
