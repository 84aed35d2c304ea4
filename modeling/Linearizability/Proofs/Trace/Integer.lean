import Linearizability.Proofs.Trace.Format
import Mathlib.Data.Nat.Digits.Defs

/-! # Times and clients are read exactly

A time and a client are integers of 64 bits. A number literal of any length is read as the integer
that it denotes, if it is an integer literal whose value has 64 bits, and refused otherwise: no
literal is wrapped around, cut off or rounded.
-/

namespace Linearizability

open Json Json.Reader Json.Decoder

variable {literal : Literal} {t ws rest r : Bytes} {depth : Nat}

namespace Json.Literal

/-- The number that the digits in front of fraction and exponent denote. -/
def magnitude (literal : Literal) : Nat := Nat.ofDigits 10 literal.whole.reverse

def toInt (literal : Literal) : Int :=
  if literal.negative then -literal.magnitude else literal.magnitude

/-- A literal without fraction and exponent that is not minus zero. -/
structure IsInteger (literal : Literal) : Prop where
  fraction : literal.fraction = none
  exponent : literal.exponent = none
  not_minusZero : ¬ (literal.negative = true ∧ literal.toInt = 0)

theorem ofDigits_eq (n : Nat) (ds : List Nat) :
    Decimal.ofDigits n ds = n * 10 ^ ds.length + Nat.ofDigits 10 ds.reverse := by
  induction ds generalizing n with
  | nil => simp [Decimal.ofDigits]
  | cons d ds ih =>
    have hd : Decimal.ofDigits n (d :: ds) = Decimal.ofDigits (n * 10 + d) ds := rfl
    rw [hd, ih, List.reverse_cons, Nat.ofDigits_append, Nat.ofDigits_singleton, List.length_reverse,
      List.length_cons, Nat.pow_succ]
    ring

theorem integer?_eq_some_iff {z : Int} : literal.integer? = some z ↔
    literal.IsInteger ∧ z = literal.toInt ∧ -2 ^ 63 ≤ z ∧ z < 2 ^ 64 := by
  obtain ⟨negative, whole, fraction, exponent⟩ := literal
  cases fraction with
  | some ds =>
    exact iff_of_false (by simp [integer?]) fun h => Option.some_ne_none _ h.1.fraction
  | none =>
    cases exponent with
    | some e => exact iff_of_false (by simp [integer?]) fun h => Option.some_ne_none _ h.1.exponent
    | none =>
      have hi : IsInteger ⟨negative, whole, none, none⟩ ↔
          ¬ (negative = true ∧ toInt ⟨negative, whole, none, none⟩ = 0) :=
        ⟨fun h => h.not_minusZero, fun h => ⟨rfl, rfl, h⟩⟩
      have hm : Int64.minValue.toInt = -9223372036854775808 := rfl
      have hs : UInt64.size = 18446744073709551616 := rfl
      rw [hi]
      simp only [integer?, toInt, magnitude, ofDigits_eq, Nat.zero_mul, Nat.zero_add, hm, hs]
      cases negative with
      | true =>
        simp only [if_true, Option.ite_none_right_eq_some, Option.some.injEq, true_and]
        omega
      | false =>
        simp only [Bool.false_eq_true, if_false, Option.ite_none_right_eq_some, Option.some.injEq,
          false_and, not_false_eq_true, true_and]
        omega

end Json.Literal

theorem run_head_spelled (h : literal.Spelled t) (hws : Blank ws) (hr : Apart rest) :
    head.run (ws ++ (t ++ rest)) =
      literal.value.map fun x => (.number x, rest) := by
  have hn : Number.reader.run (t ++ rest) = literal.value.map fun x => (x, rest) := by
    rw [Number.reader, run_bind (h.takes_reader .endInValue rest hr)]
    cases literal.value <;> rfl
  obtain ⟨b, u, he, hb⟩ : ∃ b u, t = b :: u ∧ (b = 45 ∨ ∃ d < 10, b = digitByte d) := by
    obtain ⟨isWhole, -, -⟩ := h
    rename_i negative whole _ _ f e
    cases negative with
    | true => exact ⟨45, _, rfl, .inl rfl⟩
    | false =>
      cases whole with
      | nil => exact absurd rfl isWhole.2.1
      | cons d ds => exact ⟨_, _, rfl, .inr ⟨d, isWhole.1 d List.mem_cons_self, rfl⟩⟩
  rw [he, List.cons_append] at hn ⊢
  rw [run_head_eq_number hws hb]
  cases hv : literal.value with
  | error fault => exact run_map_error Head.number (hn.trans (by rw [hv]; rfl))
  | ok x => exact run_map Head.number (hn.trans (by rw [hv]; rfl))

section Decoder

variable {s : Bytes} {z : Int}

theorem run_int64_of_integer (h : head.run s = .ok (.number (.integer z), r)) (depth : Nat) :
    (int64 depth).run s = if -2 ^ 63 ≤ z ∧ z ≤ 2 ^ 63 - 1 then .ok (Int64.ofInt z, r)
      else .error (.outOfRange z .int64) := by
  have hl : Int64.minValue.toInt = -2 ^ 63 := rfl
  have hg : Int64.maxValue.toInt = 2 ^ 63 - 1 := rfl
  rw [int64, integer, hl, hg]
  split
  · rename_i hz
    refine run_map Int64.ofInt ((run_bind h).trans ?_)
    dsimp only
    rw [if_pos hz]
    rfl
  · rename_i hz
    refine run_map_error Int64.ofInt ((run_bind h).trans ?_)
    dsimp only
    rw [if_neg hz]
    rfl

theorem run_int64_of_not_integer (h : literal.integer? = none)
    (hh : head.run s = literal.value.map fun x => (.number x, r)) (depth : Nat) :
    ∃ fault, (int64 depth).run s = .error fault := by
  rw [Literal.value, h] at hh
  cases hf : literal.floatSize with
  | error fault =>
    rw [hf] at hh
    exact ⟨fault, run_map_error Int64.ofInt (run_bind_error hh)⟩
  | ok x =>
    rw [hf] at hh
    exact ⟨_, run_map_error Int64.ofInt (run_bind hh)⟩

theorem run_int64_iff (h : literal.Spelled t) (hws : Blank ws) (hr : Apart rest) {n : Int64} :
    (int64 depth).run (ws ++ (t ++ rest)) = .ok (n, r) ↔
      r = rest ∧ literal.IsInteger ∧ n.toInt = literal.toInt := by
  have hhead := run_head_spelled h hws hr
  have hleast : -2 ^ 63 ≤ n.toInt := n.minValue_le_toInt
  have hgreatest : n.toInt ≤ 2 ^ 63 - 1 := n.toInt_le
  cases hi : literal.integer? with
  | none =>
    obtain ⟨fault, hf⟩ := run_int64_of_not_integer hi hhead depth
    refine iff_of_false (by simp [hf]) ?_
    rintro ⟨-, hint, hn⟩
    have hs := Literal.integer?_eq_some_iff.mpr ⟨hint, hn, hleast, by omega⟩
    simp [hi] at hs
  | some z =>
    obtain ⟨hint, hz, -, -⟩ := Literal.integer?_eq_some_iff.mp hi
    have hv : literal.value = .ok (.integer z) := by rw [Literal.value, hi]
    rw [hv] at hhead
    rw [run_int64_of_integer hhead, ← hz]
    split
    · rename_i hrange
      have hto : (Int64.ofInt z).toInt = z :=
        Int64.toInt_ofInt_of_le hrange.1 (by omega)
      have hn : n = Int64.ofInt z ↔ n.toInt = z := by rw [← Int64.toInt_inj, hto]
      simp only [Except.ok.injEq, Prod.mk.injEq]
      rw [eq_comm, hn, eq_comm (a := rest)]
      tauto
    · rename_i hrange
      refine iff_of_false (by simp) ?_
      rintro ⟨-, -, hn⟩
      exact hrange (by omega)

/-- A decoder finds the number that a literal denotes, or refuses it: as a text of its own, and
where it stands in a larger one. -/
structure ReadsExactly {α : Type} (decoder : Decoder α) (number : α → Int) (literal : Literal)
    (t : Bytes) : Prop where
  accepts_iff : (∃ a, decode decoder t = .ok a) ↔
    literal.IsInteger ∧ -2 ^ 63 ≤ literal.toInt ∧ literal.toInt ≤ 2 ^ 63 - 1
  number_eq : ∀ a, decode decoder t = .ok a → number a = literal.toInt
  within : ∀ depth ws rest a r, Blank ws → Apart rest →
    ((decoder depth).run (ws ++ (t ++ rest)) = .ok (a, r) ↔ r = rest ∧ decode decoder t = .ok a)

theorem readsExactly_map_int64 {α : Type} {make : Int64 → α} {number : α → Int}
    (hnumber : ∀ n, number (make n) = n.toInt) (h : literal.Spelled t) :
    ReadsExactly (fun depth => make <$> int64 depth) number literal t := by
  have hrun : ∀ depth ws rest a r, Blank ws → Apart rest →
      ((make <$> int64 depth).run (ws ++ (t ++ rest)) = .ok (a, r) ↔
        r = rest ∧ ∃ n, (literal.IsInteger ∧ n.toInt = literal.toInt) ∧ make n = a) := by
    intro depth ws rest a r hws hr
    rw [run_map_eq_ok_iff]
    simp only [run_int64_iff h hws hr]
    tauto
  have hdecode : ∀ a, decode (fun depth => make <$> int64 depth) t = .ok a ↔
      ∃ n, (literal.IsInteger ∧ n.toInt = literal.toInt) ∧ make n = a := by
    intro a
    have hall := fun a r => hrun greatestDepth [] [] a r blank_nil apart_nil
    simp only [List.nil_append, List.append_nil] at hall
    rw [decode]
    split
    · rename_i fault hf
      have := hall a []
      simp only [hf, reduceCtorEq, true_and, false_iff] at this
      exact iff_of_false (by simp) this
    · rename_i a' r hf
      obtain ⟨rfl, hn⟩ := (hall a' r).mp hf
      have hn' := hall a []
      rw [hf] at hn'
      simpa [dropBlank] using hn'
  refine ⟨?_, ?_, fun depth ws rest a r hws hr => by rw [hrun _ _ _ _ _ hws hr, hdecode]⟩
  · simp only [hdecode]
    constructor
    · rintro ⟨_, n, ⟨hint, hn⟩, rfl⟩
      have hleast : -2 ^ 63 ≤ n.toInt := n.minValue_le_toInt
      have hgreatest : n.toInt ≤ 2 ^ 63 - 1 := n.toInt_le
      exact ⟨hint, hn ▸ hleast, hn ▸ hgreatest⟩
    · rintro ⟨hint, hleast, hgreatest⟩
      have hn : (Int64.ofInt literal.toInt).toInt = literal.toInt :=
        Int64.toInt_ofInt_of_le hleast (by omega)
      exact ⟨_, _, ⟨hint, hn⟩, rfl⟩
  · intro a ha
    obtain ⟨n, ⟨_, hn⟩, rfl⟩ := (hdecode a).mp ha
    rw [hnumber, hn]

end Decoder

/-- Times and clients are read exactly, or not at all. -/
theorem integers_read_exactly (h : literal.Spelled t) :
    ReadsExactly Timestamp.decoder (fun time => time.raw.toInt) literal t ∧
      ReadsExactly Client.decoder (fun client => client.id.toInt) literal t :=
  ⟨readsExactly_map_int64 (fun _ => rfl) h, readsExactly_map_int64 (fun _ => rfl) h⟩

namespace LeastInteger

/-- The digits of 2 ^ 63, but for the last one. -/
def front : List Nat := [9, 2, 2, 3, 3, 7, 2, 0, 3, 6, 8, 5, 4, 7, 7, 5, 8, 0]

def endingIn (last : Nat) : Literal := ⟨true, front ++ [last], none, none⟩

end LeastInteger

theorem integers_read_exactly_least :
    (∃ time, decode Timestamp.decoder (Bytes.ofString "-9223372036854775808") = .ok time ∧
        time.raw.toInt = -2 ^ 63) ∧
      (¬ ∃ client, decode Client.decoder (Bytes.ofString "-9223372036854775809") = .ok client) ∧
      ¬ ∃ time, decode Timestamp.decoder (Bytes.ofString "1.0") = .ok time := by
  have hleast : (LeastInteger.endingIn 8).Spelled (Bytes.ofString "-9223372036854775808") :=
    .mk (by simp [Literal.Whole, LeastInteger.front]) .absent .absent
  have hbelow : (LeastInteger.endingIn 9).Spelled (Bytes.ofString "-9223372036854775809") :=
    .mk (by simp [Literal.Whole, LeastInteger.front]) .absent .absent
  have hpoint : Literal.Spelled ⟨false, [1], some [0], none⟩ (Bytes.ofString "1.0") :=
    .mk (by simp [Literal.Whole]) (.point (by simp [Literal.Digits])) .absent
  have h8 : (LeastInteger.endingIn 8).toInt = -2 ^ 63 := by decide
  have h9 : (LeastInteger.endingIn 9).toInt = -2 ^ 63 - 1 := by decide
  have hread := (integers_read_exactly hleast).1
  obtain ⟨time, ht⟩ := hread.accepts_iff.mpr
    ⟨⟨rfl, rfl, by rw [h8]; decide⟩, by rw [h8], by rw [h8]; decide⟩
  refine ⟨⟨time, ht, (hread.number_eq time ht).trans h8⟩, ?_, ?_⟩
  · rw [(integers_read_exactly hbelow).2.accepts_iff, h9]
    omega
  · rw [(integers_read_exactly hpoint).1.accepts_iff]
    exact fun h => Option.some_ne_none _ h.1.fraction

end Linearizability
