import Linearizability.Proofs.Json.Decoder

/-! # Texts cut short

The front of a text, but not all of it, is the text cut short. A reader that needs all of a text
finds that it ends too early, wherever it is cut; strings are read so. Only what is left of a
number may be a number again.
-/

namespace Linearizability.Json

open Reader

/-- The front of a text, but not all of it. -/
def Cut (s t : Bytes) : Prop := s <+: t ∧ s ≠ t

section Cut

variable {s t u ws : Bytes} {b : UInt8}

theorem Cut.exists_append (h : Cut s t) : ∃ u, u ≠ [] ∧ t = s ++ u := by
  obtain ⟨⟨u, rfl⟩, hne⟩ := h
  exact ⟨u, by simpa using hne, rfl⟩

theorem not_cut_nil : ¬ Cut s [] := by
  rintro ⟨hp, hne⟩
  exact hne (List.prefix_nil.mp hp)

theorem cut_cons_iff : Cut s (b :: t) ↔ s = [] ∨ ∃ r, s = b :: r ∧ Cut r t := by
  cases s with
  | nil => simp [Cut]
  | cons c s =>
    simp only [Cut, List.cons_prefix_cons, ne_eq, List.cons.injEq, reduceCtorEq, false_or]
    constructor
    · rintro ⟨⟨rfl, hp⟩, hne⟩
      exact ⟨s, ⟨rfl, rfl⟩, hp, fun h => hne ⟨rfl, h⟩⟩
    · rintro ⟨r, ⟨rfl, rfl⟩, hp, hne⟩
      exact ⟨⟨rfl, hp⟩, fun h => hne h.2⟩

theorem cut_append_iff : Cut s (t ++ u) ↔ Cut s t ∨ ∃ r, s = t ++ r ∧ Cut r u := by
  induction t generalizing s with
  | nil => simp [not_cut_nil]
  | cons b t ih =>
    rw [List.cons_append, cut_cons_iff, cut_cons_iff]
    simp only [ih]
    constructor
    · rintro (rfl | ⟨r, rfl, hr | ⟨q, rfl, hq⟩⟩)
      · exact .inl (.inl rfl)
      · exact .inl (.inr ⟨r, rfl, hr⟩)
      · exact .inr ⟨q, rfl, hq⟩
    · rintro ((rfl | ⟨r, rfl, hr⟩) | ⟨q, rfl, hq⟩)
      · exact .inl rfl
      · exact .inr ⟨r, rfl, .inl hr⟩
      · exact .inr ⟨t ++ q, rfl, .inr ⟨q, rfl, hq⟩⟩

theorem cut_singleton_iff : Cut s [b] ↔ s = [] := by
  rw [cut_cons_iff]
  exact or_iff_left fun ⟨_, _, hr⟩ => not_cut_nil hr

theorem Cut.blank (h : Cut s ws) (hws : Blank ws) : Blank s := fun b hb => hws b (h.1.subset hb)

theorem Cut.blank_of_append (h : Cut s (ws ++ [b])) (hws : Blank ws) : Blank s := by
  rcases cut_append_iff.mp h with hs | ⟨r, rfl, hr⟩
  · exact hs.blank hws
  · rw [cut_singleton_iff.mp hr, List.append_nil]
    exact hws

theorem Cut.apart (h : Cut s t) (ht : Apart t) : Apart s := by
  cases s with
  | nil => exact apart_nil
  | cons b s =>
    obtain ⟨u, _, rfl⟩ := h.exists_append
    exact ht

theorem dropBlank_of_blank (h : Blank ws) : dropBlank ws = [] := by
  rw [← List.append_nil ws, dropBlank_append h]
  rfl

end Cut

namespace Reader

variable {α β : Type} {x : Reader α} {f : α → Reader β} {a : α} {s t r ws : Bytes} {b : UInt8}

def Short (found : Except Fault α) : Prop :=
  ∃ fault, found = .error fault ∧ fault.category = .ending

/-- The reader finds that the text ends too early. -/
def Ends (x : Reader α) (s : Bytes) : Prop := Short (x.run s)

/-- The reader cannot do without any part of the text. -/
def Needs (x : Reader α) (t : Bytes) : Prop := ∀ s, Cut s t → Ends x s

/-- The reader takes any part of the text that it can do with, and leaves nothing of it. -/
def Wants (x : Reader α) (t : Bytes) : Prop :=
  ∀ s, Cut s t → Ends x s ∨ ∃ a, x.run s = .ok (a, [])

theorem Needs.wants (h : Needs x t) : Wants x t := fun s hs => .inl (h s hs)

theorem ends_fail {fault : Fault} (h : fault.category = .ending) (s : Bytes) :
    Ends (fail fault : Reader α) s :=
  ⟨fault, rfl, h⟩

theorem Ends.bind (h : Ends x s) (f : α → Reader β) : Ends (x >>= f) s := by
  obtain ⟨fault, hx, hc⟩ := h
  exact ⟨fault, by simp [Bind.bind, hx], hc⟩

theorem ends_bind (hx : x.run s = .ok (a, r)) (h : Ends (f a) r) : Ends (x >>= f) s := by
  obtain ⟨fault, hf, hc⟩ := h
  exact ⟨fault, (run_bind hx).trans hf, hc⟩

theorem Needs.bind (h : Needs x t) (f : α → Reader β) : Needs (x >>= f) t :=
  fun s hs => (h s hs).bind f

theorem Wants.bind_pure (h : Wants x t) (g : α → β) : Wants (x >>= fun a => pure (g a)) t := by
  intro s hs
  rcases h s hs with h | ⟨a, h⟩
  · exact .inl (h.bind _)
  · exact .inr ⟨g a, run_bind h⟩

theorem run_peek_of_blank (h : Blank ws) : peek.run ws = .ok (none, []) := by
  have hr : blank.run ws = .ok ((), []) :=
    congrArg (Except.ok ∘ Prod.mk ()) (dropBlank_of_blank h)
  exact run_bind hr

theorem needs_append_cons (hws : Blank ws) (hb : ∀ ws, Blank ws → Ends x ws)
    (h : ∀ s, Cut s t → Ends x (ws ++ b :: s)) : Needs x (ws ++ b :: t) := by
  intro s hs
  rcases cut_append_iff.mp hs with hs | ⟨r, rfl, hr⟩
  · exact hb s (hs.blank hws)
  · rcases cut_cons_iff.mp hr with rfl | ⟨q, rfl, hq⟩
    · rw [List.append_nil]
      exact hb ws hws
    · exact h q hq

end Reader

/-! ## Strings

Of a string nothing is found before its end, and what is found does not depend on what follows.
-/

section Online

variable {α β : Type} {x : Reader α} {f : α → Reader β} {a : α} {s t : Bytes}

/-- What the reader finds does not depend on what follows, unless it finds that the text ends too
early. -/
def Online (x : Reader α) : Prop :=
  ∀ s, Ends x s ∨ ∀ u, x.run (s ++ u) = (x.run s).map fun (a, r) => (a, r ++ u)

theorem online_pure (a : α) : Online (pure a : Reader α) := fun _ => .inr fun _ => rfl

theorem online_fail (fault : Fault) : Online (fail fault : Reader α) := fun _ => .inr fun _ => rfl

theorem Online.bind (hx : Online x) (hf : ∀ a, Online (f a)) : Online (x >>= f) := by
  intro s
  rcases hx s with hx | hx
  · exact .inl (hx.bind f)
  · cases hr : x.run s with
    | error fault => exact .inr fun u => by simp [Bind.bind, hx u, hr, Except.map]
    | ok found =>
      obtain ⟨a, r⟩ := found
      rcases hf a r with hf | hf
      · exact .inl (ends_bind hr hf)
      · right
        intro u
        have hu : x.run (s ++ u) = .ok (a, r ++ u) := by rw [hx u, hr]; rfl
        rw [run_bind hu, run_bind hr, hf u]

theorem online_take_bind {f : Option Char → Reader β} (hn : Ends (f none) [])
    (hf : ∀ c, Online (f (some c))) : Online (take >>= f) := by
  intro s
  cases s with
  | nil => exact .inl (ends_bind (a := none) rfl hn)
  | cons b s =>
    rcases hf (Char.ofUInt8 b) s with h | h
    · exact .inl (ends_bind (run_take b s) h)
    · right
      intro u
      rw [List.cons_append, run_bind (run_take b _), run_bind (run_take b _), h u]

theorem Online.needs (hx : Online x) (ht : Takes x t a) : Needs x t := by
  intro s hs
  obtain ⟨u, hu, rfl⟩ := hs.exists_append
  rcases hx s with h | h
  · exact h
  · have hr := ht [] apart_nil
    rw [List.append_nil, h u] at hr
    cases hs : x.run s with
    | error fault => rw [hs] at hr; cases hr
    | ok found =>
      rw [hs] at hr
      have he := congrArg Prod.snd (Except.ok.inj hr)
      exact absurd (List.append_eq_nil_iff.mp he).2 hu

theorem online_word {ending : Fault} (h : ending.category = .ending) (other : Fault)
    (cs : List Char) : Online (word ending other cs) := by
  induction cs with
  | nil => exact online_pure ()
  | cons c cs ih =>
    apply online_take_bind (ends_fail h [])
    intro d
    by_cases hd : c = d
    · simpa [hd] using ih
    · simpa [hd] using online_fail other

namespace Text

theorem online_unit : Online unit := by
  have hend : ∀ s, Ends (fail .endInText : Reader Nat) s := ends_fail rfl
  refine online_take_bind ⟨.endInText, rfl, rfl⟩ fun a =>
    online_take_bind ⟨.endInText, rfl, rfl⟩ fun b =>
    online_take_bind ⟨.endInText, rfl, rfl⟩ fun c =>
    online_take_bind ⟨.endInText, rfl, rfl⟩ fun d => ?_
  dsimp only
  split
  · exact online_pure _
  · exact online_fail _

theorem online_codePoint : Online codePoint := by
  refine online_unit.bind fun high => ?_
  split
  · exact online_fail _
  · split
    · refine (online_word rfl _ _).bind fun _ => online_unit.bind fun low => ?_
      split
      · exact online_pure _
      · exact online_fail _
    · exact online_pure _

theorem online_escape : Online escape := by
  refine online_take_bind (ends_fail rfl []) fun c => ?_
  split
  case h_10 => exact online_codePoint
  case h_1 | h_11 => exact online_fail _
  all_goals exact online_pure _

theorem body_escape_error {x : Reader Bytes} {fault : Fault} (h : x.run s = .error fault)
    (read : Bytes) : body x read (92 :: s) = .error fault := by
  rw [body, if_neg (by decide), if_pos rfl]
  split <;> rename_i he <;> cases h.symm.trans he
  rfl

theorem body_control {x : Reader Bytes} {b : UInt8} (mark : b ≠ 34) (backslash : b ≠ 92)
    (control : b < 32) (read s : Bytes) : body x read (b :: s) = .error .controlCharacter := by
  rw [body, if_neg mark, if_neg backslash, if_pos control]

theorem online_body {x : Reader Bytes} (hx : Online x) (read : Bytes) :
    Online ⟨body x read, length_body_le⟩ := by
  intro s
  simp only [Ends, Short]
  fun_induction body x read s with
  | case1 => exact .inl ⟨_, rfl, rfl⟩
  | case2 => exact .inr fun u => by simp [body_mark, Except.map]
  | case3 read r fault he _ =>
    rcases hx r with ⟨_, hr, hc⟩ | hr
    · cases he.symm.trans hr
      exact .inl ⟨_, rfl, hc⟩
    · right
      intro u
      have hru : x.run (r ++ u) = .error fault := by rw [hr u, he]; rfl
      exact body_escape_error hru read
  | case4 read r bytes r' he _ ih =>
    rw [List.reverseAux_eq] at ih ⊢
    refine ih.imp_right fun ih u => ?_
    rcases hx r with ⟨_, hr, _⟩ | hr
    · cases he.symm.trans hr
    · have hru : x.run (r ++ u) = .ok (bytes, r' ++ u) := by rw [hr u, he]; rfl
      rw [List.cons_append, body_escape hru, ih u]
  | case5 read b r mark backslash control =>
    exact .inr fun u => body_control mark backslash control read (r ++ u)
  | case6 read b r mark backslash control ih =>
    exact ih.imp_right fun ih u => (body_plain x mark backslash control read (r ++ u)).trans (ih u)

theorem online_reader : Online Text.reader := by
  refine (online_body online_escape []).bind fun bytes => ?_
  split
  · exact online_fail _
  · exact online_pure _

end Text

end Online

end Linearizability.Json
