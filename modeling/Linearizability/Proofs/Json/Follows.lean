import Linearizability.Proofs.Json.Skip

/-! # What is read is skipped

Skipping takes a value as far as any decoder takes it. So a decoder that takes a value at all leaves
what stands behind that value, whatever the value is.
-/

namespace Linearizability.Json

open Reader Skip

/-- The reader leads from one place to another: going on from the first one is the same as going on
from the second one with what the reader leaves. -/
def Leads {α : Type} (here there : List Bracket → Bytes → Except Fault Bytes) (x : Reader α) :
    Prop :=
  ∀ s a r, x.run s = .ok (a, r) → ∀ brackets, here brackets s = there brackets r

/-- From some stage on, skipping leaves what the reader leaves, behind a value. -/
def Follows {α : Type} (stage : Stage) (x : Reader α) : Prop :=
  Leads (skip stage) (skip .behind) x

def Head.stage : Head → Stage
  | .list => .opened .list
  | .object => .opened .object
  | _ => .behind

section Follows

variable {α β σ : Type} {x : Reader α} {f : α → Reader β} {stage : Stage} {s r u : Bytes}
  {b : UInt8} {brackets : List Bracket}
  {here there beyond : List Bracket → Bytes → Except Fault Bytes}

theorem leads_pure (a : α) : Leads here here (pure a : Reader α) := by
  intro s a' r h brackets
  cases h
  rfl

theorem leads_fail (fault : Fault) : Leads here there (fail fault : Reader α) := by
  intro s a r h
  cases h

theorem leads_lift (found : Except Fault α) : Leads here here (Reader.lift found) := by
  cases found with
  | error fault => exact leads_fail fault
  | ok a => exact leads_pure a

theorem Leads.bind (hx : Leads here there x) (hf : ∀ a, Leads there beyond (f a)) :
    Leads here beyond (x >>= f) := by
  intro s b r h brackets
  obtain ⟨a, u, ha, hb⟩ := run_bind_eq_ok_iff.mp h
  rw [hx s a u ha, hf a u b r hb]

theorem Leads.map (g : α → β) (hx : Leads here there x) : Leads here there (g <$> x) :=
  hx.bind fun a => leads_pure (g a)

theorem not_isBlank_of_dropBlank (h : dropBlank s = b :: r) : isBlank b = false := by
  induction s with
  | nil => cases h
  | cons c s ih =>
    rw [dropBlank, List.dropWhile_cons, ← dropBlank] at h
    split at h
    · exact ih h
    · rename_i hc
      cases h
      simpa using hc

theorem Literal.run_reader_of_number {x : Number} (h : Number.reader.run s = .ok (x, r)) :
    ∃ literal, (Literal.reader .invalidNumber).run s = .ok (literal, r) := by
  obtain ⟨literal, u, hl, h⟩ := run_bind_eq_ok_iff.mp h
  have hr : r = u := by
    cases hv : literal.value with
    | error fault =>
      rw [hv] at h
      cases h
    | ok y =>
      rw [hv] at h
      cases h
      rfl
  exact ⟨literal, hr ▸ agrees_reader s _ hl⟩

theorem run_scalar_eq_number (hb : isBlank b = false)
    (hn : Char.ofUInt8 b = '-' ∨ (Char.ofUInt8 b).isDigit = true) {literal : Literal}
    (h : (Literal.reader .invalidNumber).run (b :: s) = .ok (literal, r)) :
    scalar.run (b :: s) = .ok ((), r) := by
  have hnot : ∀ c ∈ ['"', 'n', 't', 'f'], Char.ofUInt8 b ≠ c := by
    rintro c hc rfl
    revert hn
    simp only [List.mem_cons, List.not_mem_nil, or_false] at hc
    rcases hc with hc | hc | hc | hc <;> rw [hc] <;> decide
  rw [scalar, run_bind (run_peek_of_dropBlank (dropBlank_cons hb))]
  split <;> rename_i hc
  case h_1 => cases hc
  case h_6 =>
    cases hc
    rw [if_pos hn]
    exact run_bind h
  all_goals exact absurd (Option.some.inj hc) (hnot _ (by decide))

/-- The front of a value is skipped, or the bracket that opens a list or an object. -/
theorem skip_of_head {front : Head} (h : head.run s = .ok (front, r)) (brackets : List Bracket) :
    skip .value brackets s = skip front.stage brackets r := by
  cases hs : dropBlank s with
  | nil =>
    rw [head, run_bind (run_peek_of_nil hs)] at h
    cases h
  | cons b v =>
    rw [head, run_bind (run_peek_of_dropBlank hs)] at h
    split at h <;> rename_i hc
    case h_1 => cases hc
    case h_2 =>
      obtain rfl : b = 110 := ofUInt8_inj.mp (Option.some.inj hc)
      obtain ⟨_, _, hw, hp⟩ := run_bind_eq_ok_iff.mp h
      cases hp
      exact skip_scalar hs (by decide) (by decide) hw
    case h_3 =>
      obtain rfl : b = 116 := ofUInt8_inj.mp (Option.some.inj hc)
      obtain ⟨_, _, hw, hp⟩ := run_bind_eq_ok_iff.mp h
      cases hp
      exact skip_scalar hs (by decide) (by decide) hw
    case h_4 =>
      obtain rfl : b = 102 := ofUInt8_inj.mp (Option.some.inj hc)
      obtain ⟨_, _, hw, hp⟩ := run_bind_eq_ok_iff.mp h
      cases hp
      exact skip_scalar hs (by decide) (by decide) hw
    case h_5 =>
      obtain rfl : b = 34 := ofUInt8_inj.mp (Option.some.inj hc)
      obtain ⟨string, hstring, rfl⟩ := run_map_eq_ok_iff.mp h
      exact skip_scalar hs (by decide) (by decide) (Text.run_skip_of_run_reader hstring)
    case h_6 =>
      obtain rfl : b = 91 := ofUInt8_inj.mp (Option.some.inj hc)
      cases h
      exact skip_list hs
    case h_7 =>
      obtain rfl : b = 123 := ofUInt8_inj.mp (Option.some.inj hc)
      cases h
      exact skip_object hs
    case h_8 hlist hobject =>
      obtain rfl := Option.some.inj hc
      split at h
      · rename_i hn
        obtain ⟨x, hx, rfl⟩ := run_map_eq_ok_iff.mp h
        obtain ⟨literal, hl⟩ := Literal.run_reader_of_number hx
        exact skip_scalar hs (fun he => hlist (he ▸ rfl)) (fun he => hobject (he ▸ rfl))
          (run_scalar_eq_number (not_isBlank_of_dropBlank hs) hn hl)
      · cases h

theorem follows_head_bind {f : Head → Reader α} (hf : ∀ front, Follows front.stage (f front)) :
    Follows .value (head >>= f) := by
  intro s a r h brackets
  obtain ⟨front, u, hh, h⟩ := run_bind_eq_ok_iff.mp h
  rw [skip_of_head hh, hf front u a r h]

theorem dropBlank_dropBlank (s : Bytes) : dropBlank (dropBlank s) = dropBlank s := by
  cases hs : dropBlank s with
  | nil => rfl
  | cons b r => exact dropBlank_cons (not_isBlank_of_dropBlank hs)

theorem skip_value_dropBlank (s : Bytes) (brackets : List Bracket) :
    skip .value brackets (dropBlank s) = skip .value brackets s := by
  have hd := dropBlank_dropBlank s
  cases hs : dropBlank s with
  | nil =>
    rw [hs] at hd
    rw [skip_value_nil hs, skip_value_nil hd]
  | cons b r =>
    rw [hs] at hd
    rw [skip_value_cons hs, skip_value_cons hd]

theorem nextElement_cases {next : Next} (h : nextElement s = .ok next) :
    (∃ u, dropBlank s = 93 :: u ∧ next = .done u) ∨
      ∃ u, dropBlank s = 44 :: u ∧ next = .more (dropBlank u) := by
  rw [nextElement] at h
  cases hs : dropBlank s with
  | nil => simp [hs] at h
  | cons b r =>
    simp only [hs] at h
    cases hr : dropBlank r with
    | nil => grind
    | cons c q => grind

theorem firstElement_cases {next : Next} (h : firstElement s = .ok next) :
    (∃ u, dropBlank s = 93 :: u ∧ next = .done u) ∨
      ∃ b u, dropBlank s = b :: u ∧ b ≠ 93 ∧ next = .more (dropBlank s) := by
  rw [firstElement] at h
  cases hs : dropBlank s with
  | nil => simp [hs] at h
  | cons b r =>
    simp only [hs] at h
    grind

theorem nextKey_cases {next : Next} (h : nextKey s = .ok next) :
    (∃ u, dropBlank s = 125 :: u ∧ next = .done u) ∨
      ∃ u v, dropBlank s = 44 :: u ∧ dropBlank u = 34 :: v ∧ next = .more v := by
  rw [nextKey] at h
  cases hs : dropBlank s with
  | nil => simp [hs] at h
  | cons b r =>
    simp only [hs] at h
    cases hr : dropBlank r with
    | nil => grind
    | cons c q => grind

theorem firstKey_cases {next : Next} (h : firstKey s = .ok next) :
    (∃ u, dropBlank s = 125 :: u ∧ next = .done u) ∨
      ∃ u, dropBlank s = 34 :: u ∧ next = .more u := by
  rw [firstKey] at h
  cases hs : dropBlank s with
  | nil => simp [hs] at h
  | cons b r =>
    simp only [hs] at h
    grind

theorem skip_elementsFrom (hx : Follows .value x) {read as : List α}
    (h : elementsFrom x read s = .ok (as, r)) (brackets : List Bracket) :
    skip .value (.list :: brackets) s = skip .behind brackets r := by
  fun_induction elementsFrom x read s with
  | case1 | case2 => cases h
  | case3 read s a u ha v hn =>
    cases h
    rcases nextElement_cases hn with ⟨w, hw, he⟩ | ⟨w, -, he⟩
    · cases he
      rw [hx s a u ha, skip_behind_closing .list hw]
    · cases he
  | case4 read s a u ha v hn ih =>
    rcases nextElement_cases hn with ⟨w, -, he⟩ | ⟨w, hw, he⟩
    · cases he
    · cases he
      rw [hx s a u ha, skip_behind_comma .list hw rfl, ← skip_value_dropBlank]
      exact ih h

theorem follows_elements (hx : Follows .value x) : Follows (.opened .list) (elements x) := by
  intro s as r h brackets
  rw [run_elements] at h
  cases hf : firstElement s with
  | error fault => simp [hf] at h
  | ok next =>
    rw [hf] at h
    rcases firstElement_cases hf with ⟨u, hu, rfl⟩ | ⟨b, u, hu, hb, rfl⟩
    · cases h
      exact skip_opened_closing .list hu
    · rw [skip_opened .list hu hb rfl, ← hu]
      exact skip_elementsFrom hx h brackets

theorem run_moreElements (x : Reader α) (s : Bytes) :
    (moreElements x).run s = match nextElement s with
      | .error fault => .error fault
      | .ok (.done r) => .ok ([], r)
      | .ok (.more r) => elementsFrom x [] r := rfl

theorem run_element? (isFirst : Bool) (x : Reader α) (s : Bytes) :
    (element? isFirst x).run s = match if isFirst then firstElement s else nextElement s with
      | .error fault => .error fault
      | .ok (.done _) => .ok (none, s)
      | .ok (.more r) => match x.run r with
        | .error fault => .error fault
        | .ok (a, r') => .ok (some a, r') := rfl

/-- Where a list goes on: at its front, or behind an element. -/
def inList (isFirst : Bool) (brackets : List Bracket) (s : Bytes) : Except Fault Bytes :=
  if isFirst then skip (.opened .list) brackets s else skip .behind (.list :: brackets) s

theorem inList_more (hx : Follows .value x) {isFirst : Bool} {a : α}
    (hn : (if isFirst then firstElement s else nextElement s) = .ok (.more u))
    (ha : x.run u = .ok (a, r)) (brackets : List Bracket) :
    inList isFirst brackets s = inList false brackets r := by
  cases isFirst with
  | true =>
    rcases firstElement_cases hn with ⟨_, _, he⟩ | ⟨b, v, hv, hb, he⟩
    · cases he
    · cases he
      rw [inList, if_pos rfl, skip_opened .list hv hb rfl, ← hv, hx _ a r ha]
      rfl
  | false =>
    rcases nextElement_cases hn with ⟨_, _, he⟩ | ⟨v, hv, he⟩
    · cases he
    · cases he
      rw [inList, if_neg (by decide), skip_behind_comma .list hv rfl, ← skip_value_dropBlank,
        hx _ a r ha]
      rfl

/-- At the end of a list it makes no difference whether there are elements. -/
theorem inList_of_done {isFirst : Bool}
    (hn : (if isFirst then firstElement s else nextElement s) = .ok (.done r))
    (brackets : List Bracket) : inList isFirst brackets s = inList false brackets s := by
  cases isFirst with
  | true =>
    rcases firstElement_cases hn with ⟨u, hu, _⟩ | ⟨_, _, _, _, he⟩
    · rw [inList, if_pos rfl, skip_opened_closing .list hu, inList, if_neg (by decide),
        skip_behind_closing .list hu]
    · cases he
  | false => rfl

def StaysInList {α : Type} (isFirst : Bool) (x : Reader α) : Prop :=
  Leads (inList isFirst) (inList false) x

def EndsList {α : Type} (isFirst : Bool) (x : Reader α) : Prop :=
  Leads (inList isFirst) (skip .behind) x

theorem EndsList.follows (h : EndsList true x) : Follows (.opened .list) x := h

theorem staysInList_element? (hx : Follows .value x) (isFirst : Bool) :
    StaysInList isFirst (element? isFirst x) := by
  intro s found r h
  rw [run_element?] at h
  split at h
  · cases h
  · rename_i hn
    cases h
    exact inList_of_done hn
  · rename_i u hn
    split at h
    · cases h
    · rename_i ha
      cases h
      exact inList_more hx hn ha

theorem endsList_endList (isFirst : Bool) : EndsList isFirst endList := by
  intro s a r h brackets
  cases hs : dropBlank s with
  | nil =>
    rw [endList, run_bind (run_peek_of_nil hs)] at h
    cases h
  | cons b u =>
    rw [endList, run_bind (run_peek_of_dropBlank hs)] at h
    split at h <;> rename_i hc
    · cases hc
    · obtain rfl : b = 93 := ofUInt8_inj.mp (Option.some.inj hc)
      cases h
      cases isFirst with
      | true => exact skip_opened_closing .list hs
      | false => exact skip_behind_closing .list hs
    · cases h
    · cases h

theorem endsList_moreElements (hx : Follows .value x) : EndsList false (moreElements x) := by
  intro s as r h brackets
  rw [run_moreElements] at h
  cases hf : nextElement s with
  | error fault => simp [hf] at h
  | ok next =>
    rw [hf] at h
    rcases nextElement_cases hf with ⟨u, hu, rfl⟩ | ⟨u, hu, rfl⟩
    · cases h
      exact skip_behind_closing .list hu
    · rw [inList, if_neg (by decide), skip_behind_comma .list hu rfl, ← skip_value_dropBlank]
      exact skip_elementsFrom hx h brackets

/-- A reader of what follows the key of a member: a colon, and a value. -/
def FollowsColon {α : Type} (x : Reader α) : Prop :=
  ∀ s a r, x.run s = .ok (a, r) → ∃ u, colon.run s = .ok ((), u) ∧
    ∀ brackets, skip .value brackets u = skip .behind brackets r

theorem followsColon_bind {f : Unit → Reader α} (hf : Follows .value (f ())) :
    FollowsColon (colon >>= f) := by
  intro s a r h
  obtain ⟨_, u, hc, h⟩ := run_bind_eq_ok_iff.mp h
  exact ⟨u, hc, hf u a r h⟩

theorem FollowsColon.bind {f : α → Reader β} (hx : FollowsColon x)
    (hf : ∀ a, Follows .behind (f a)) : FollowsColon (x >>= f) := by
  intro s b r h
  obtain ⟨a, u, ha, hb⟩ := run_bind_eq_ok_iff.mp h
  obtain ⟨v, hv, hskip⟩ := hx s a u ha
  exact ⟨v, hv, fun brackets => (hskip brackets).trans (hf a u b r hb brackets)⟩

theorem run_key (hs : dropBlank s = 34 :: r) {key : String} {u v : Bytes}
    (hk : Text.reader.run r = .ok (key, u)) (hc : colon.run u = .ok ((), v)) :
    Skip.key.run s = .ok ((), v) := by
  rw [Skip.key, run_bind (run_peek_of_dropBlank hs)]
  exact (run_bind (Text.run_skip_of_run_reader hk)).trans hc

theorem skip_membersFrom {member : String → σ → Reader σ}
    (hm : ∀ key g, FollowsColon (member key g)) {g g' : σ}
    (h : membersFrom member g s = .ok (g', r)) (brackets : List Bracket) {s' : Bytes}
    (hs : dropBlank s' = 34 :: s) :
    ∃ u, Skip.key.run s' = .ok ((), u) ∧
      skip .value (.object :: brackets) u = skip .behind brackets r := by
  fun_induction membersFrom member g s generalizing s' with
  | case1 | case2 | case3 => cases h
  | case4 g s key u hk g' v hv w hn =>
    cases h
    obtain ⟨t, hc, hskip⟩ := hm key g u g' v hv
    refine ⟨t, run_key hs hk hc, ?_⟩
    rcases nextKey_cases hn with ⟨q, hq, he⟩ | ⟨q, q', -, -, he⟩
    · cases he
      rw [hskip, skip_behind_closing .object hq]
    · cases he
  | case5 g s key u hk g' v hv w hn ih =>
    obtain ⟨t, hc, hskip⟩ := hm key g u g' v hv
    refine ⟨t, run_key hs hk hc, ?_⟩
    rcases nextKey_cases hn with ⟨q, -, he⟩ | ⟨q, q', hq, hq', he⟩
    · cases he
    · cases he
      obtain ⟨p, hp, hskip'⟩ := ih h hq'
      rw [hskip, skip_behind_comma .object hq hp, hskip']

theorem follows_members {member : String → σ → Reader σ}
    (hm : ∀ key g, FollowsColon (member key g)) (g : σ) :
    Follows (.opened .object) (members member g) := by
  intro s g' r h brackets
  rw [run_members] at h
  cases hf : firstKey s with
  | error fault => simp [hf] at h
  | ok next =>
    rw [hf] at h
    rcases firstKey_cases hf with ⟨u, hu, rfl⟩ | ⟨u, hu, rfl⟩
    · cases h
      exact skip_opened_closing .object hu
    · obtain ⟨v, hv, hskip⟩ := skip_membersFrom hm h brackets
        (dropBlank_cons (by decide : isBlank 34 = false))
      rw [skip_opened .object hu (by decide) hv, hskip]

theorem follows_value (depth : Nat) : Follows .value (value depth) := by
  induction depth with
  | zero =>
    refine follows_head_bind fun front => ?_
    cases front with
    | list | object => exact leads_fail _
    | null | flag | number | text => exact leads_pure _
  | succ depth ih =>
    refine follows_head_bind fun front => ?_
    cases front with
    | list => exact (follows_elements ih).map Value.list
    | object =>
      refine (follows_members (fun key read => ?_) []).bind fun read => leads_pure _
      exact followsColon_bind (ih.bind fun v => leads_pure _)
    | null | flag | number | text => exact leads_pure _

namespace Decoder

theorem follows_int64 (depth : Nat) : Follows .value (int64 depth) := by
  refine Leads.map _ (follows_head_bind fun front => ?_)
  split
  · split
    · exact leads_pure _
    · exact leads_fail _
  · exact leads_fail _

theorem follows_textAs (kind : Kind) (depth : Nat) : Follows .value (textAs kind depth) := by
  refine follows_head_bind fun front => ?_
  split
  · exact leads_pure _
  · exact leads_fail _

theorem follows_container (kind : Kind) {list object : Decoder α}
    (hl : ∀ depth, Follows (.opened .list) (list depth))
    (ho : ∀ depth, Follows (.opened .object) (object depth)) (depth : Nat) :
    Follows .value (container kind list object depth) := by
  refine follows_head_bind fun front => ?_
  cases depth with
  | zero => cases front <;> exact leads_fail _
  | succ depth =>
    cases front with
    | list => exact hl depth
    | object => exact ho depth
    | null | flag | number | text => exact leads_fail _

theorem follows_nullable {decoder : Decoder α} {depth : Nat} (h : Follows .value (decoder depth)) :
    Follows .value (nullable decoder depth) := by
  intro s a r hr brackets
  cases hs : dropBlank s with
  | nil =>
    rw [nullable, run_bind (run_peek_of_nil hs)] at hr
    rw [← skip_value_dropBlank, hs]
    exact h.map some _ a r hr brackets
  | cons b u =>
    rw [nullable, run_bind (run_peek_of_dropBlank hs)] at hr
    split at hr
    · rename_i hc
      obtain rfl : b = 110 := ofUInt8_inj.mp (Option.some.inj hc)
      obtain ⟨_, _, hw, hp⟩ := run_bind_eq_ok_iff.mp hr
      cases hp
      exact skip_scalar hs (by decide) (by decide) hw
    · rw [← skip_value_dropBlank, hs]
      exact h.map some _ a r hr brackets

theorem staysInList_elementOr (hx : Follows .value x) (isFirst : Bool) (a : α) :
    StaysInList isFirst (elementOr isFirst a x) := by
  refine (staysInList_element? hx _).bind fun found => ?_
  cases found <;> exact leads_pure _

theorem followsColon_once (hx : Follows .value x) (name : String) (known : Option α) :
    FollowsColon (once name known x) := by
  cases known with
  | none => exact followsColon_bind (hx.map some)
  | some a =>
    intro s b r h
    cases h

theorem followsColon_ignored : FollowsColon ignored := by
  refine followsColon_bind fun s a r h brackets => ?_
  exact skip_within (run_reader_eq_ok_iff.mp h) brackets

end Decoder

end Follows

end Linearizability.Json
