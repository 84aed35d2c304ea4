import Linearizability.Proofs.Json.Follows
import Linearizability.Proofs.Json.Spelling

/-! # Texts of objects

The text of an object has a key and a value for each member, with blanks between its parts. If a
reader of members takes each member of an object, it takes the object. Conversely, a reader that
takes an object has taken one member after another, each with just its value.
-/

namespace Linearizability.Json

open Reader Skip

/-- A text that is skipped as a value, all of it. -/
def Skippable (t : Bytes) : Prop := Skip.reader.run t = .ok ((), [])

/-- A text that is read as a value, all of it, in which lists and objects are nested to the given
depth at most. -/
def Readable (depth : Nat) (t : Bytes) : Prop := ∃ v, (value depth).run t = .ok (v, [])

inductive MemberSpelled : String × Bytes → Bytes → Prop where
  | mk {key : String} {t u ws ws' : Bytes} (name : Text.StringSpelled key t) (blank : Blank ws)
      (blank' : Blank ws') : MemberSpelled (key, u) (t ++ (ws ++ 58 :: (ws' ++ u)))

inductive MembersSpelled : List (String × Bytes) → Bytes → Prop where
  | last {m : String × Bytes} {t ws : Bytes} (member : MemberSpelled m t) (blank : Blank ws) :
    MembersSpelled [m] (t ++ (ws ++ [125]))
  | more {m : String × Bytes} {ms : List (String × Bytes)} {t u ws ws' : Bytes}
      (member : MemberSpelled m t) (blank : Blank ws) (blank' : Blank ws')
      (others : MembersSpelled ms u) : MembersSpelled (m :: ms) (t ++ (ws ++ 44 :: (ws' ++ u)))

/-- The spellings of an object with given members, each with the text of its value. -/
inductive ObjectSpelled : List (String × Bytes) → Bytes → Prop where
  | empty {ws : Bytes} (blank : Blank ws) : ObjectSpelled [] (123 :: (ws ++ [125]))
  | some {ms : List (String × Bytes)} {t ws : Bytes} (blank : Blank ws)
      (members : MembersSpelled ms t) : ObjectSpelled ms (123 :: (ws ++ t))

section Values

variable {α β : Type} {x : Reader α} {f : α → Reader β} {depth : Nat} {v : Value}
  {s t ws rest : Bytes}

theorem run_peek_append (h : Blank ws) (s : Bytes) : peek.run (ws ++ s) = peek.run s := by
  have hb : blank.run (ws ++ s) = blank.run s :=
    congrArg (fun r => Except.ok ((), r)) (dropBlank_append h s)
  simp only [peek, bind, hb]

theorem run_head_append (h : Blank ws) (s : Bytes) : head.run (ws ++ s) = head.run s := by
  simp only [head, bind, run_peek_append h]

theorem run_value_append (h : Blank ws) (s : Bytes) :
    (value depth).run (ws ++ s) = (value depth).run s := by
  cases depth <;> simp only [value, bind, run_head_append h]

theorem reads_value (h : (value depth).run t = .ok (v, [])) : Reads (value depth) t v := by
  intro ws hws rest hr
  rw [List.append_assoc, run_value_append hws]
  exact local_value depth t v [] rest h fun _ => hr

theorem Skippable.skip_append (h : Skippable t) (hws : Blank ws) (hr : Apart rest) :
    skip .value [] (ws ++ (t ++ rest)) = .ok rest := by
  have ht := Skip.skip_append (run_reader_eq_ok_iff.mp h) fun _ => hr
  rw [← skip_value_dropBlank, dropBlank_append hws, skip_value_dropBlank]
  exact ht

theorem Skippable.reads (h : Skippable t) : Reads Skip.reader t () := by
  intro ws hws rest hr
  rw [List.append_assoc, run_reader_eq_ok_iff]
  exact h.skip_append hws hr

theorem skippable_of_reads {a : α} (hx : Follows .value x) (h : Reads x t a) : Skippable t := by
  have hr := h.takes [] apart_nil
  rw [List.append_nil] at hr
  rw [Skippable, run_reader_eq_ok_iff, hx t a [] hr, skip_behind_nil]

end Values

section TakesMember

variable {α β : Type} {x : Reader α} {a : α} {b : β} {u : Bytes}

/-- The reader takes a value behind a key, whatever blanks stand around the colon. -/
def TakesMember (x : Reader α) (u : Bytes) (a : α) : Prop :=
  ∀ ws ws', Blank ws → Blank ws' → Takes x (ws ++ 58 :: (ws' ++ u)) a

theorem takesMember_colon {f : Unit → Reader α} (h : Reads (f ()) u a) :
    TakesMember (colon >>= f) u a := by
  intro ws ws' hws hws' rest hr
  rw [List.append_assoc, List.cons_append, run_bind (run_colon hws _)]
  exact h ws' hws' rest hr

theorem TakesMember.bind_pure {f : α → Reader β} (h : TakesMember x u a) (hf : f a = pure b) :
    TakesMember (x >>= f) u b :=
  fun ws ws' hws hws' => (h ws ws' hws hws').bind_pure hf

theorem takesMember_once {name : String} {known : Option α} {f : Option α → Reader β}
    (h : Reads x u a) (hknown : known = none) (hf : f (some a) = pure b) :
    TakesMember (Decoder.once name known x >>= f) u b := by
  subst hknown
  exact (takesMember_colon (h.map some)).bind_pure hf

theorem takesMember_ignored (h : Skippable u) : TakesMember Decoder.ignored u () :=
  takesMember_colon h.reads

end TakesMember

section Members

variable {σ : Type} {member : String → σ → Reader σ} {g g' : σ} {key : String}
  {ms : List (String × Bytes)} {s t u r rest text : Bytes}

/-! ## An object is taken if its members are -/

/-- Taking the members one after another brings what was gathered from one state to another. -/
inductive Steps (member : String → σ → Reader σ) : List (String × Bytes) → σ → σ → Prop where
  | nil (g : σ) : Steps member [] g g
  | cons {key : String} {u : Bytes} {ms : List (String × Bytes)} {g g' g'' : σ}
      (value : TakesMember (member key g) u g') (others : Steps member ms g' g'') :
    Steps member ((key, u) :: ms) g g''

theorem Text.StringSpelled.exists_takes (h : Text.StringSpelled key t) :
    ∃ u, t = 34 :: u ∧ Takes Text.reader u key := by
  obtain ⟨chars⟩ := h
  exact ⟨_, rfl, chars.spells_ofString.takes⟩

theorem MembersSpelled.exists_members (h : MembersSpelled ms text) (hs : Steps member ms g g') :
    ∃ u, text = 34 :: u ∧ Members member u g g' := by
  induction h generalizing g with
  | @last m t ws hmember blank =>
    obtain ⟨name, blank', blank''⟩ := hmember
    cases hs with
    | cons value others =>
      cases others
      obtain ⟨u, rfl, hu⟩ := name.exists_takes
      have hm := Members.last hu (value _ _ blank' blank'')
        (apart_append_cons blank' (by decide) _) blank
      exact ⟨_, by simp, hm⟩
  | @more m ms t v ws ws' hmember blank blank' _ ih =>
    obtain ⟨name, hblank, hblank'⟩ := hmember
    cases hs with
    | cons value others =>
      obtain ⟨u, rfl, hu⟩ := name.exists_takes
      obtain ⟨w, rfl, hw⟩ := ih others
      have hm := Members.more hu (value _ _ hblank hblank')
        (apart_append_cons hblank (by decide) _) blank blank' hw
      exact ⟨_, by simp, hm⟩

theorem ObjectSpelled.exists_takes (h : ObjectSpelled ms text) (hs : Steps member ms g g') :
    ∃ u, text = 123 :: u ∧ Takes (members member g) u g' := by
  cases h with
  | empty blank =>
    cases hs
    exact ⟨_, rfl, takes_members_nil member g blank⟩
  | some blank hmembers =>
    obtain ⟨u, rfl, hu⟩ := hmembers.exists_members hs
    exact ⟨_, rfl, hu.takes blank⟩

theorem steps_ignored (hv : ∀ m ∈ ms, Skippable m.2) :
    Steps (fun _ _ => Decoder.ignored) ms () () := by
  induction ms with
  | nil => exact .nil ()
  | cons m ms ih =>
    rw [List.forall_mem_cons] at hv
    exact .cons (takesMember_ignored hv.1) (ih hv.2)

theorem ObjectSpelled.skippable (h : ObjectSpelled ms text) (hv : ∀ m ∈ ms, Skippable m.2) :
    Skippable text := by
  obtain ⟨u, rfl, hu⟩ := h.exists_takes (steps_ignored hv)
  have hr := hu [] apart_nil
  rw [List.append_nil] at hr
  have hskip := follows_members (fun _ _ => Decoder.followsColon_ignored) () u () [] hr []
  rw [Skippable, run_reader_eq_ok_iff, skip_object (dropBlank_cons (by decide)), hskip,
    skip_behind_nil]

/-! ## An object that is taken is taken member by member -/

/-- The members have been read one after another, each with just its value. -/
inductive Trail (member : String → σ → Reader σ) : List (String × Bytes) → σ → σ → Prop where
  | nil (g : σ) : Trail member [] g g
  | cons {key : String} {u ws ws' rest : Bytes} {ms : List (String × Bytes)} {g g' g'' : σ}
      (blank : Blank ws) (blank' : Blank ws') (apart : Apart rest)
      (run : (member key g).run (ws ++ 58 :: (ws' ++ (u ++ rest))) = .ok (g', rest))
      (others : Trail member ms g' g'') : Trail member ((key, u) :: ms) g g''

theorem exists_of_membersFrom (h : membersFrom member g s = .ok (g', r)) :
    ∃ key u g₁ v next, Text.reader.run s = .ok (key, u) ∧ (member key g).run u = .ok (g₁, v) ∧
      nextKey v = .ok next ∧
      (next = .done r ∧ g₁ = g' ∨ ∃ w, next = .more w ∧ membersFrom member g₁ w = .ok (g', r)) := by
  rw [membersFrom] at h
  split at h
  · cases h
  · rename_i hk
    split at h
    · cases h
    · rename_i hm
      split at h
      · cases h
      · rename_i hn
        cases h
        exact ⟨_, _, _, _, _, hk, hm, hn, .inl ⟨rfl, rfl⟩⟩
      · rename_i hn
        exact ⟨_, _, _, _, _, hk, hm, hn, .inr ⟨_, rfl, h⟩⟩

/-- A member leaves what is behind its value, since it leaves what is left when that is skipped. -/
theorem eq_of_followsColon {x : Reader σ} (hx : FollowsColon x) (hu : Skippable u) {ws ws' : Bytes}
    (hws : Blank ws) (hws' : Blank ws') (hr : Apart rest)
    (h : x.run (ws ++ 58 :: (ws' ++ (u ++ rest))) = .ok (g', r)) : r = rest := by
  obtain ⟨v, hv, hskip⟩ := hx _ _ _ h
  rw [run_colon hws] at hv
  cases hv
  have hs := hskip []
  rw [hu.skip_append hws' hr, skip_behind_nil] at hs
  exact (Except.ok.inj hs).symm

theorem MembersSpelled.exists_cons (h : MembersSpelled ms t) : ∃ u, t = 34 :: u := by
  cases h with
  | last member | more member =>
    obtain ⟨⟨_⟩⟩ := member
    exact ⟨_, rfl⟩

theorem MemberSpelled.exists_step (hm : ∀ key g, FollowsColon (member key g))
    (h : MemberSpelled (key, u) t) (hu : Skippable u) (hrest : Apart rest)
    (ht : 34 :: s = t ++ rest) (hr : membersFrom member g s = .ok (g', r)) :
    ∃ ws ws' g₁ next, Blank ws ∧ Blank ws' ∧
      (member key g).run (ws ++ 58 :: (ws' ++ (u ++ rest))) = .ok (g₁, rest) ∧
      nextKey rest = .ok next ∧
      (next = .done r ∧ g₁ = g' ∨ ∃ w, next = .more w ∧ membersFrom member g₁ w = .ok (g', r)) := by
  obtain ⟨name, blank, blank'⟩ := h
  rename_i q ws ws'
  obtain ⟨c, rfl, hc⟩ := name.exists_takes
  obtain rfl : s = c ++ (ws ++ 58 :: (ws' ++ (u ++ rest))) := by simpa using ht
  obtain ⟨key', v, g₁, w, next, hk, hg, hn, hnext⟩ := exists_of_membersFrom hr
  rw [hc _ (apart_append_cons blank (by decide) _)] at hk
  cases hk
  obtain rfl := eq_of_followsColon (hm _ _) hu blank blank' hrest hg
  exact ⟨ws, ws', g₁, next, blank, blank', hg, hn, hnext⟩

theorem MembersSpelled.trail (hm : ∀ key g, FollowsColon (member key g))
    (h : MembersSpelled ms text) (hv : ∀ m ∈ ms, Skippable m.2) (ht : 34 :: s = text ++ rest)
    (hr : membersFrom member g s = .ok (g', r)) : Trail member ms g g' ∧ r = rest := by
  induction h generalizing s g with
  | @last m t ws hmember blank =>
    rw [List.forall_mem_singleton] at hv
    have ha : Apart (ws ++ 125 :: rest) := apart_append_cons blank (by decide) _
    obtain ⟨_, _, g₁, next, hws, hws', hg, hn, hnext⟩ :=
      hmember.exists_step hm hv ha (by simpa using ht) hr
    rw [nextKey_end blank] at hn
    cases hn
    rcases hnext with ⟨he, rfl⟩ | ⟨_, he, _⟩
    · cases he
      exact ⟨.cons hws hws' ha hg (.nil _), rfl⟩
    · cases he
  | @more m ms t v ws ws' hmember blank blank' others ih =>
    rw [List.forall_mem_cons] at hv
    obtain ⟨u, rfl⟩ := others.exists_cons
    have ha : Apart (ws ++ 44 :: (ws' ++ 34 :: (u ++ rest))) :=
      apart_append_cons blank (by decide) _
    obtain ⟨_, _, g₁, next, hws, hws', hg, hn, hnext⟩ :=
      hmember.exists_step hm hv.1 ha (by simpa using ht) hr
    rw [nextKey_more blank blank'] at hn
    cases hn
    rcases hnext with ⟨he, _⟩ | ⟨w, he, hr'⟩
    · cases he
    · cases he
      obtain ⟨htrail, rfl⟩ := ih hv.2 rfl hr'
      exact ⟨.cons hws hws' ha hg htrail, rfl⟩

theorem ObjectSpelled.exists_cons (h : ObjectSpelled ms t) : ∃ u, t = 123 :: u := by
  cases h with
  | empty | some => exact ⟨_, rfl⟩

theorem ObjectSpelled.trail (hm : ∀ key g, FollowsColon (member key g))
    (h : ObjectSpelled ms (123 :: s)) (hv : ∀ m ∈ ms, Skippable m.2)
    (hr : (members member g).run (s ++ rest) = .ok (g', r)) : Trail member ms g g' := by
  rw [run_members] at hr
  generalize ht : 123 :: s = text at h
  cases h with
  | @empty ws blank =>
    obtain rfl : s = ws ++ [125] := (List.cons.inj ht).2
    rw [List.append_assoc, List.singleton_append, firstKey, dropBlank_append_cons blank rfl] at hr
    cases hr
    exact .nil g
  | @some _ t ws blank hmembers =>
    obtain rfl : s = ws ++ t := (List.cons.inj ht).2
    obtain ⟨u, rfl⟩ := hmembers.exists_cons
    rw [List.append_assoc, List.cons_append, firstKey, dropBlank_append_cons blank rfl] at hr
    exact (hmembers.trail hm hv rfl hr).1

/-- A member of an object that has been read has been read somewhere, and others behind it. -/
theorem Trail.exists_run (h : Trail member ms g g') (hm : (key, u) ∈ ms) :
    ∃ g₁ g₂ ms' ws ws' rest, Blank ws ∧ Blank ws' ∧ Apart rest ∧
      (member key g₁).run (ws ++ 58 :: (ws' ++ (u ++ rest))) = .ok (g₂, rest) ∧
      Trail member ms' g₂ g' := by
  induction h with
  | nil => cases hm
  | @cons key' u' ws ws' rest ms g g₁ g' blank blank' apart run others ih =>
    rcases List.mem_cons.mp hm with he | hm
    · cases he
      exact ⟨g, g₁, ms, ws, ws', rest, blank, blank', apart, run, others⟩
    · exact ih hm

theorem Trail.keeps {p : σ → Prop}
    (hp : ∀ key g s g' r, (member key g).run s = .ok (g', r) → p g → p g')
    (h : Trail member ms g g') (hg : p g) : p g' := by
  induction h with
  | nil => exact hg
  | cons _ _ _ run _ ih => exact ih (hp _ _ _ _ _ run hg)

end Members

section Taken

open Decoder

variable {α β : Type} {x : Reader α} {f : Option α → Reader β} {known found : Option α}
  {name : String} {s r ws : Bytes} {a : α} {b : β}

theorem once_bind_cases (h : (once name known x >>= f).run s = .ok (b, r)) : known = none ∧
    ∃ u a v, colon.run s = .ok ((), u) ∧ x.run u = .ok (a, v) ∧
      (f (some a)).run v = .ok (b, r) := by
  obtain ⟨found, v, hm, hb⟩ := run_bind_eq_ok_iff.mp h
  cases known with
  | some => cases hm
  | none =>
    obtain ⟨_, u, hc, hm⟩ := run_bind_eq_ok_iff.mp hm
    obtain ⟨a, ha, rfl⟩ := run_map_eq_ok_iff.mp hm
    exact ⟨rfl, u, a, v, hc, ha, hb⟩

theorem container_cases {kind : Kind} {list object : Decoder α} {depth : Nat} (hws : Blank ws)
    (h : (container kind list object depth).run (ws ++ 123 :: s) = .ok (a, r)) :
    ∃ d, depth = d + 1 ∧ (object d).run s = .ok (a, r) := by
  rw [container, run_bind (run_head_object hws _)] at h
  cases depth with
  | zero => cases h
  | succ depth => exact ⟨depth, rfl, h⟩

theorem nullable_cases {decoder : Decoder α} {depth : Nat} (hws : Blank ws)
    (h : (nullable decoder depth).run (ws ++ 123 :: s) = .ok (found, r)) :
    ∃ a, (decoder depth).run (123 :: s) = .ok (a, r) ∧ found = some a := by
  rw [nullable, run_bind (run_peek hws rfl _)] at h
  split at h
  · rename_i heq
    have hn : (123 : UInt8) = 110 := ofUInt8_inj.mp (Option.some.inj heq)
    exact absurd hn (by decide)
  · obtain ⟨a, ha, rfl⟩ := run_map_eq_ok_iff.mp h
    exact ⟨a, ha, rfl⟩

theorem lift_cases {computed : Except Fault α} (h : (lift computed).run s = .ok (a, r)) :
    computed = .ok a := by
  cases computed <;> cases h
  rfl

end Taken

/-! ## Names that are noted once -/

section Noted

variable {σ : Type} {step : String → σ → σ → Prop} {names : List String} {g g' : σ}

inductive Noted (step : String → σ → σ → Prop) : List String → σ → σ → Prop where
  | nil (g : σ) : Noted step [] g g
  | cons {name : String} {names : List String} {g g' g'' : σ} (first : step name g g')
      (others : Noted step names g' g'') : Noted step (name :: names) g g''

theorem Noted.count_le_one {name : String} (knows : σ → Bool)
    (hstep : ∀ key g g', step key g g' →
      (key = name → knows g = false) ∧ knows g' = (knows g || key == name))
    (h : Noted step names g g') :
    names.count name ≤ 1 ∧ (knows g = true → names.count name = 0) := by
  induction h with
  | nil => simp
  | @cons key names g g₁ g' first _ ih =>
    obtain ⟨hnew, hknows⟩ := hstep _ _ _ first
    rw [List.count_cons]
    by_cases hk : key = name
    · subst hk
      rw [beq_self_eq_true, Bool.or_true] at hknows
      simp [ih.2 hknows, hnew rfl]
    · rw [beq_eq_false_iff_ne.mpr hk, Bool.or_false] at hknows
      simpa [hk, hknows] using ih

theorem Trail.noted {member : String → σ → Reader σ} {ms : List (String × Bytes)}
    (h : Trail member ms g g') :
    Noted (fun key g g' => ∃ s r, (member key g).run s = .ok (g', r)) (ms.map Prod.fst) g g' := by
  induction h with
  | nil => exact .nil _
  | cons _ _ _ run _ ih => exact .cons ⟨_, _, run⟩ ih

end Noted

/-! ## Members that are known by name -/

/-- Members of which those with known names occur at most once each, with contents that suit them,
and some have to be there. What members of other names have to be is given too. -/
structure Carries {α : Type} (names needed : List String) (known : String → α → Prop)
    (other : α → Prop) (ms : List (String × α)) : Prop where
  once : ∀ name ∈ names, (ms.map Prod.fst).count name ≤ 1
  present : ∀ name ∈ needed, name ∈ ms.map Prod.fst
  known : ∀ m ∈ ms, m.1 ∈ names → known m.1 m.2
  other : ∀ m ∈ ms, m.1 ∉ names → other m.2

section Carries

variable {σ : Type} {member : String → σ → Reader σ} {names needed : List String}
  {known : String → Bytes → Prop} {other : Bytes → Prop} {P : List String → σ → Prop}

theorem exists_steps
    (step : ∀ seen g key u, P seen g → (key ∈ names → key ∉ seen ∧ known key u) →
      (key ∉ names → other u) → ∃ g', TakesMember (member key g) u g' ∧ P (key :: seen) g')
    (ms : List (String × Bytes)) {seen : List String} {g : σ} (hg : P seen g)
    (once : ∀ name ∈ names, (ms.map Prod.fst).count name + seen.count name ≤ 1)
    (hknown : ∀ m ∈ ms, m.1 ∈ names → known m.1 m.2) (hother : ∀ m ∈ ms, m.1 ∉ names → other m.2) :
    ∃ g', Steps member ms g g' ∧ P ((ms.map Prod.fst).reverse ++ seen) g' := by
  induction ms generalizing seen g with
  | nil => exact ⟨g, .nil g, hg⟩
  | cons m ms ih =>
    obtain ⟨key, u⟩ := m
    rw [List.forall_mem_cons] at hknown hother
    simp only [List.map_cons, List.count_cons] at once
    have hnew : key ∈ names → key ∉ seen := by
      intro hk hs
      have hle := once key hk
      have hpos := List.count_pos_iff.mpr hs
      simp only [beq_self_eq_true, if_true] at hle
      omega
    obtain ⟨g₁, htakes, hg₁⟩ :=
      step seen g key u hg (fun hk => ⟨hnew hk, hknown.1 hk⟩) hother.1
    obtain ⟨g', hsteps, hg'⟩ := ih hg₁ (fun name hn => by
      have := once name hn
      rw [List.count_cons]
      omega) hknown.2 hother.2
    refine ⟨g', .cons htakes hsteps, ?_⟩
    simpa using hg'

theorem Carries.exists_steps {ms : List (String × Bytes)}
    (h : Carries names needed known other ms)
    (step : ∀ seen g key u, P seen g → (key ∈ names → key ∉ seen ∧ known key u) →
      (key ∉ names → other u) → ∃ g', TakesMember (member key g) u g' ∧ P (key :: seen) g')
    {g : σ} (hg : P [] g) : ∃ g', Steps member ms g g' ∧ P (ms.map Prod.fst).reverse g' := by
  have hs := Json.exists_steps step ms hg (by simpa using h.once) h.known h.other
  rwa [List.append_nil] at hs

end Carries

end Linearizability.Json
