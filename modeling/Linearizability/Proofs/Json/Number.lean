import Linearizability.Json.Printer
import Linearizability.Proofs.Json.Reading

/-! # Reading numbers

A number literal is read as it is spelled, if no number goes on behind it. So an integer of 64 bits
is read as it is printed.
-/

namespace Linearizability

theorem Bytes.ofString_append (s t : String) : ofString (s ++ t) = ofString s ++ ofString t := by
  simp [ofString]

theorem Bytes.ofString_ofList (cs : List Char) :
    ofString (String.ofList cs) = cs.flatMap String.utf8EncodeChar := by
  simp [ofString, List.utf8Encode]

namespace Json

open Reader

def digitByte (d : Nat) : UInt8 := UInt8.ofNat (48 + d)

theorem isDigit_digitByte : ∀ d < 10, isDigit (digitByte d) = true := by decide

theorem toNat_digitByte : ∀ d < 10, (digitByte d).toNat - 48 = d := by decide

theorem utf8EncodeChar_digitChar :
    ∀ d < 10, String.utf8EncodeChar (Decimal.digitChar d) = [digitByte d] := by
  decide

theorem flatMap_digitChar {ds : List Nat} (h : ∀ d ∈ ds, d < 10) :
    (ds.map Decimal.digitChar).flatMap String.utf8EncodeChar = ds.map digitByte := by
  induction ds with
  | nil => rfl
  | cons d ds ih =>
    rw [List.forall_mem_cons] at h
    rw [List.map_cons, List.flatMap_cons, utf8EncodeChar_digitChar d h.1, ih h.2]
    rfl

theorem ofString_ofNat (n : Nat) :
    Bytes.ofString (Decimal.ofNat n) = (Decimal.digits n).map digitByte := by
  rw [Decimal.ofNat, Bytes.ofString_ofList]
  exact flatMap_digitChar fun _ => Decimal.lt_ten_of_mem_digits

theorem ofUInt8_inj {a b : UInt8} : Char.ofUInt8 a = Char.ofUInt8 b ↔ a = b := by
  refine ⟨fun h => ?_, congrArg _⟩
  have hn : a.toNat = b.toNat := congrArg Char.toNat h
  exact UInt8.toNat_inj.mp hn

namespace Literal

variable {ds : List Nat} {b : UInt8} {rest : Bytes}

def NoDigit (rest : Bytes) : Prop := ∀ b, rest.head? = some b → isDigit b = false

theorem noDigit_of_apart (h : Apart rest) : NoDigit rest := fun b hb => (h b hb).1

theorem run_digits (h : ∀ d ∈ ds, d < 10) (hr : NoDigit rest) :
    digits.run (ds.map digitByte ++ rest) = .ok (ds, rest) := by
  have hall : ∀ b ∈ ds.map digitByte, isDigit b = true := by
    rintro _ hb
    obtain ⟨d, hd, rfl⟩ := List.mem_map.mp hb
    exact isDigit_digitByte d (h d hd)
  have hrest : rest.takeWhile isDigit = [] ∧ rest.dropWhile isDigit = rest := by
    cases rest with
    | nil => exact ⟨rfl, rfl⟩
    | cons b rest =>
      have hb := hr b rfl
      simp [hb]
  have hmap : (ds.map digitByte).map (fun b => b.toNat - 48) = ds := by
    rw [List.map_map]
    exact (List.map_congr_left fun d hd => toNat_digitByte d (h d hd)).trans (List.map_id ds)
  simp only [digits, List.takeWhile_append_of_pos hall, List.dropWhile_append_of_pos hall, hrest,
    List.append_nil, hmap]

theorem run_someDigits (h : ∀ d ∈ ds, d < 10) (hn : ds ≠ []) (hr : NoDigit rest)
    (unfinished : Fault) :
    (someDigits unfinished).run (ds.map digitByte ++ rest) = .ok (ds, rest) := by
  rw [someDigits, run_bind (run_digits h hr)]
  cases ds with
  | nil => exact absurd rfl hn
  | cons => rfl

/-- Digits of which the first one is no zero, unless it is the only one. -/
def Whole (ds : List Nat) : Prop := (∀ d ∈ ds, d < 10) ∧ ds ≠ [] ∧ ∀ es, ds = 0 :: es → es = []

theorem run_wholeDigits (h : Whole ds) (hr : NoDigit rest) (unfinished : Fault) :
    (wholeDigits unfinished).run (ds.map digitByte ++ rest) = .ok (ds, rest) := by
  rw [wholeDigits, run_bind (run_someDigits h.1 h.2.1 hr unfinished)]
  split
  · cases h.2.2 _ rfl
  · rfl

theorem whole_digits (n : Nat) : Whole (Decimal.digits n) := by
  refine ⟨fun _ => Decimal.lt_ten_of_mem_digits, Decimal.digits_ne_nil n, ?_⟩
  induction n using Nat.strongRecOn with
  | _ n ih =>
    intro es h
    rw [Decimal.digits] at h
    split at h
    · simpa using (List.cons.inj h).2.symm
    · rename_i hn
      cases hd : Decimal.digits (n / 10) with
      | nil => exact absurd hd (Decimal.digits_ne_nil _)
      | cons d ds =>
        rw [hd] at h
        obtain ⟨rfl, rfl⟩ := List.cons.inj h
        obtain rfl := ih _ (by omega) _ hd
        have hz := Decimal.ofDigits_digits (n / 10)
        simp only [hd, Decimal.ofDigits, List.foldl_cons, List.foldl_nil] at hz
        omega

theorem run_sign_of_digit {d : Nat} (h : d < 10) (allowed : Bool) (rest : Bytes) :
    (sign allowed).run (digitByte d :: rest) = .ok (false, digitByte d :: rest) := by
  have hc : ∀ d < 10, Char.ofUInt8 (digitByte d) ≠ '-' ∧ Char.ofUInt8 (digitByte d) ≠ '+' := by
    decide
  rw [sign, run_bind (run_glance _)]
  split
  · rename_i heq
    exact absurd (Option.some.inj heq) (hc d h).1
  · rename_i heq
    exact absurd (Option.some.inj heq) (hc d h).2
  · rfl

theorem glance_ne {b : UInt8} (h : rest.head? ≠ some b) :
    rest.head?.map Char.ofUInt8 ≠ some (Char.ofUInt8 b) := by
  intro he
  obtain ⟨b', hb', heq⟩ := Option.map_eq_some_iff.mp he
  exact h (ofUInt8_inj.mp heq ▸ hb')

theorem head_ne_of_apart (h : Apart rest) {b : UInt8} (hb : b ∈ [46, 69, 101]) :
    rest.head? ≠ some b :=
  fun he => (h b he).2 hb

def Digits (ds : List Nat) : Prop := (∀ d ∈ ds, d < 10) ∧ ds ≠ []

inductive FractionSpelled : Option (List Nat) → Bytes → Prop where
  | absent : FractionSpelled none []
  | point {ds : List Nat} (digits : Digits ds) :
    FractionSpelled (some ds) (46 :: ds.map digitByte)

/-- The spellings of an exponent, behind either letter. -/
inductive ExponentSpelled : Option (Bool × List Nat) → Bytes → Prop where
  | absent : ExponentSpelled none []
  | unsigned {ds : List Nat} {letter : UInt8} (mark : letter ∈ [69, 101]) (digits : Digits ds) :
    ExponentSpelled (some (false, ds)) (letter :: ds.map digitByte)
  | plus {ds : List Nat} {letter : UInt8} (mark : letter ∈ [69, 101]) (digits : Digits ds) :
    ExponentSpelled (some (false, ds)) (letter :: 43 :: ds.map digitByte)
  | minus {ds : List Nat} {letter : UInt8} (mark : letter ∈ [69, 101]) (digits : Digits ds) :
    ExponentSpelled (some (true, ds)) (letter :: 45 :: ds.map digitByte)

/-- The spellings of a number literal. -/
inductive Spelled : Literal → Bytes → Prop where
  | mk {negative : Bool} {whole : List Nat} {fraction : Option (List Nat)}
      {exponent : Option (Bool × List Nat)} {f e : Bytes} (isWhole : Whole whole)
      (isFraction : FractionSpelled fraction f) (isExponent : ExponentSpelled exponent e) :
    Spelled ⟨negative, whole, fraction, exponent⟩
      ((if negative then [45] else []) ++ whole.map digitByte ++ (f ++ e))

theorem run_fractionDigits {fraction : Option (List Nat)} {f : Bytes}
    (h : FractionSpelled fraction f) (hd : NoDigit rest) (hp : rest.head? ≠ some 46)
    (unfinished : Fault) : (fractionDigits unfinished).run (f ++ rest) = .ok (fraction, rest) := by
  cases h with
  | absent =>
    rw [fractionDigits, run_bind (run_glance _)]
    split
    · rename_i heq
      exact absurd heq (glance_ne hp)
    · rfl
  | point digits =>
    have hs := run_someDigits digits.1 digits.2 hd unfinished
    exact run_map some hs

theorem run_exponentDigits_of_mark {letter : UInt8} (mark : letter ∈ [69, 101]) {negative : Bool}
    {s : Bytes} (hs : (sign true).run s = .ok (negative, ds.map digitByte ++ rest))
    (digits : Digits ds) (hd : NoDigit rest) (unfinished : Fault) :
    (exponentDigits unfinished).run (letter :: s) = .ok (some (negative, ds), rest) := by
  have hrest : ((sign true) >>= fun negative => someDigits unfinished >>= fun ds =>
      pure (some (negative, ds))).run s = .ok (some (negative, ds), rest) := by
    rw [run_bind hs, run_bind (run_someDigits digits.1 digits.2 hd unfinished), run_pure]
  simp only [List.mem_cons, List.not_mem_nil, or_false] at mark
  rcases mark with rfl | rfl
  · exact hrest
  · exact hrest

theorem run_exponentDigits {exponent : Option (Bool × List Nat)} {e : Bytes}
    (h : ExponentSpelled exponent e) (hr : Apart rest) (unfinished : Fault) :
    (exponentDigits unfinished).run (e ++ rest) = .ok (exponent, rest) := by
  have hd := noDigit_of_apart hr
  cases h with
  | absent =>
    rw [exponentDigits, run_bind (run_glance _)]
    split
    · rename_i heq
      exact absurd heq (glance_ne (b := 101) (head_ne_of_apart hr (by decide)))
    · rename_i heq
      exact absurd heq (glance_ne (b := 69) (head_ne_of_apart hr (by decide)))
    · rfl
  | @unsigned ds letter mark digits =>
    refine run_exponentDigits_of_mark mark ?_ digits hd unfinished
    cases ds with
    | nil => exact absurd rfl digits.2
    | cons d ds => exact run_sign_of_digit (digits.1 d List.mem_cons_self) true _
  | plus mark digits => exact run_exponentDigits_of_mark mark rfl digits hd unfinished
  | minus mark digits => exact run_exponentDigits_of_mark mark rfl digits hd unfinished

theorem exponent_apart {exponent : Option (Bool × List Nat)} {e : Bytes}
    (h : ExponentSpelled exponent e) (hr : Apart rest) :
    NoDigit (e ++ rest) ∧ (e ++ rest).head? ≠ some 46 := by
  have hmark : ∀ letter ∈ [(69 : UInt8), 101], ∀ s : Bytes,
      NoDigit (letter :: s) ∧ (letter :: s).head? ≠ some 46 := by
    simp [NoDigit, isDigit]
  cases h with
  | absent => exact ⟨noDigit_of_apart hr, head_ne_of_apart hr (by decide)⟩
  | unsigned mark | plus mark | minus mark => exact hmark _ mark _

theorem noDigit_fraction {fraction : Option (List Nat)} {f : Bytes}
    (h : FractionSpelled fraction f) (hr : NoDigit rest) : NoDigit (f ++ rest) := by
  cases h with
  | absent => exact hr
  | point => simp [NoDigit, isDigit]

theorem Spelled.takes_reader {literal : Literal} {t : Bytes} (h : literal.Spelled t)
    (unfinished : Fault) : Takes (Literal.reader unfinished) t literal := by
  obtain ⟨isWhole, isFraction, isExponent⟩ := h
  rename_i negative whole fraction exponent f e
  intro rest hr
  obtain ⟨hd, hp⟩ := exponent_apart isExponent hr
  have hsign : (sign false).run ((if negative then [45] else []) ++ (whole.map digitByte ++
      (f ++ (e ++ rest)))) = .ok (negative, whole.map digitByte ++ (f ++ (e ++ rest))) := by
    cases negative with
    | true => rfl
    | false =>
      cases whole with
      | nil => exact absurd rfl isWhole.2.1
      | cons d ds => exact run_sign_of_digit (isWhole.1 d List.mem_cons_self) false _
  simp only [List.append_assoc]
  rw [Literal.reader, run_bind hsign,
    run_bind (run_wholeDigits isWhole (noDigit_fraction isFraction hd) unfinished),
    run_bind (run_fractionDigits isFraction hd hp unfinished),
    run_bind (run_exponentDigits isExponent hr unfinished)]
  rfl

theorem spelled_integer (h : Whole ds) (negative : Bool) :
    Spelled ⟨negative, ds, none, none⟩ ((if negative then [45] else []) ++ ds.map digitByte) := by
  simpa using Spelled.mk h .absent .absent

end Literal

theorem ofString_ofInt (z : Int) : Bytes.ofString (Decimal.ofInt z) =
    (if z < 0 then [45] else []) ++ (Decimal.digits z.natAbs).map digitByte := by
  have hminus : Bytes.ofString "-" = [45] := rfl
  rw [Decimal.ofInt]
  split
  · rw [Bytes.ofString_append, hminus, ofString_ofNat]
  · rw [ofString_ofNat, List.nil_append]

theorem takes_number {z : Int} (hl : Int64.minValue.toInt ≤ z) (hu : z < UInt64.size) :
    Takes Number.reader (numberPiece (.integer z)) (.integer z) := by
  have hw := Literal.whole_digits z.natAbs
  have hv : Literal.value ⟨decide (z < 0), Decimal.digits z.natAbs, none, none⟩ =
      .ok (.integer z) := by
    have hi : Literal.integer? ⟨decide (z < 0), Decimal.digits z.natAbs, none, none⟩ = some z := by
      have hm : Int64.minValue.toInt = -9223372036854775808 := rfl
      rw [hm] at hl
      simp only [Literal.integer?, Decimal.ofDigits_digits, hm, decide_eq_true_eq]
      by_cases hz : z < 0
      · rw [if_pos hz, if_pos (by omega)]
        exact congrArg some (by omega)
      · rw [if_neg hz, if_pos (by omega)]
        exact congrArg some (by omega)
    rw [Literal.value, hi]
  intro rest hr
  have ht := (Literal.spelled_integer hw (decide (z < 0))).takes_reader .endInValue rest hr
  rw [numberPiece, piece, ofString_ofInt, Number.reader]
  simp only [decide_eq_true_eq] at ht
  rw [run_bind ht, hv]
  rfl

end Json

end Linearizability
