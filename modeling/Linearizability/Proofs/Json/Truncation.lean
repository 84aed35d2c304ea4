import Linearizability.Proofs.Json.Cut

/-! # Printed values cut short

Decoders need all of a printed text, list or object, and take what is left of a printed integer
for another integer at most. A decoder of a list or an object asks this of its parts only.
-/

namespace Linearizability.Json

open Reader

section Integer

variable {n : Nat} {ds : List Nat} {z : Int} {s ws : Bytes}

theorem exists_digits_of_prefix (h : ds <+: Decimal.digits n) (hne : ds ≠ []) :
    ∃ m ≤ n, ds = Decimal.digits m ∧ (0 < n → 0 < m) := by
  induction n using Nat.strongRecOn with
  | _ n ih =>
    by_cases heq : ds = Decimal.digits n
    · exact ⟨n, Nat.le_refl n, heq, id⟩
    · rw [Decimal.digits] at h heq
      split at h
      · rename_i hn
        rw [if_pos hn] at heq
        rw [← List.nil_append [n]] at h
        have hp := (List.prefix_concat_iff.mp h).resolve_left heq
        exact absurd (List.prefix_nil.mp hp) hne
      · rename_i hn
        rw [if_neg hn] at heq
        have hp := (List.prefix_concat_iff.mp h).resolve_left heq
        obtain ⟨m, hm, hd, hpos⟩ := ih (n / 10) (by omega) hp
        exact ⟨m, by omega, hd, fun _ => hpos (by omega)⟩

/-- What is left of a printed integer is its sign at most, or an integer that is not further from
zero. -/
theorem numberPiece_cut (h : Cut s (numberPiece (.integer z))) :
    s = [] ∨ s = [45] ∨ ∃ z', s = numberPiece (.integer z') ∧ min z 0 ≤ z' ∧ z' ≤ max z 0 := by
  have hdigits : ∀ {r}, Cut r ((Decimal.digits z.natAbs).map digitByte) → r ≠ [] →
      ∃ m ≤ z.natAbs, r = (Decimal.digits m).map digitByte ∧ (0 < z.natAbs → 0 < m) := by
    rintro r ⟨hp, -⟩ hne
    obtain ⟨ds, hds, rfl⟩ := List.prefix_map_iff.mp hp
    obtain ⟨m, hm, rfl, hpos⟩ := exists_digits_of_prefix hds (by simpa using hne)
    exact ⟨m, hm, rfl, hpos⟩
  rw [numberPiece, piece, ofString_ofInt] at h
  by_cases hs : s = []
  · exact .inl hs
  right
  by_cases hz : z < 0
  · rw [if_pos hz, List.singleton_append] at h
    obtain ⟨r, rfl, hr⟩ := (cut_cons_iff.mp h).resolve_left hs
    by_cases hn : r = []
    · exact .inl (by rw [hn])
    · obtain ⟨m, hm, rfl, hpos⟩ := hdigits hr hn
      have hneg : -(m : Int) < 0 := by omega
      refine .inr ⟨-(m : Int), ?_, by omega, by omega⟩
      rw [numberPiece, piece, ofString_ofInt, if_pos hneg, Int.natAbs_neg, Int.natAbs_natCast]
      rfl
  · rw [if_neg hz, List.nil_append] at h
    obtain ⟨m, hm, rfl, -⟩ := hdigits h hs
    refine .inr ⟨m, ?_, by omega, by omega⟩
    rw [numberPiece, piece, ofString_ofInt, if_neg (by omega), Int.natAbs_natCast]
    rfl

theorem ends_head_of_blank (h : Blank ws) : Ends head ws :=
  ends_bind (run_peek_of_blank h) (ends_fail rfl [])

theorem ends_head_sign (h : Blank ws) : Ends head (ws ++ [45]) :=
  ends_bind (run_peek h rfl []) ⟨.endInValue, rfl, rfl⟩

theorem Decoder.wants_int64 (n : Int64) (depth : Nat) (hws : Blank ws) :
    Wants (int64 depth) (ws ++ numberPiece (.integer n.toInt)) := by
  have hends : ∀ {s}, Ends head s → Ends (int64 depth) s := fun h => (h.bind _).bind _
  have hl : Int64.minValue.toInt ≤ n.toInt := n.minValue_le_toInt
  have hu : n.toInt ≤ Int64.maxValue.toInt := n.toInt_le
  have hmin : Int64.minValue.toInt = -9223372036854775808 := rfl
  have hmax : Int64.maxValue.toInt = 9223372036854775807 := rfl
  intro s hs
  rcases cut_append_iff.mp hs with hs | ⟨r, rfl, hr⟩
  · exact .inl (hends (ends_head_of_blank (hs.blank hws)))
  · rcases numberPiece_cut hr with rfl | rfl | ⟨z, rfl, hzl, hzu⟩
    · rw [List.append_nil]
      exact .inl (hends (ends_head_of_blank hws))
    · exact .inl (hends (ends_head_sign hws))
    · right
      have hz : (Int64.ofInt z).toInt = z :=
        Int64.toInt_ofInt_of_le (by omega) (by omega)
      have hr := reads_int64 (Int64.ofInt z) depth ws hws [] apart_nil
      rw [hz, List.append_nil] at hr
      exact ⟨_, hr⟩

end Integer

section Text

variable {α : Type} {x : Reader α} {decoder : Decoder α} {u ws : Bytes} {b : UInt8}

theorem needs_head_text (hws : Blank ws) (s : String) :
    Needs head (ws ++ 34 :: (escaped (Bytes.ofString s) ++ [34])) := by
  have htext := Text.online_reader.needs (Text.spells_escaped (Bytes.ofString s)).takes
  exact needs_append_cons hws (fun _ => ends_head_of_blank) fun r hr =>
    ends_bind (run_peek hws rfl r) ((htext r hr).bind _)

namespace Decoder

theorem needs_textAs (kind : Kind) (s : String) (depth : Nat) (hws : Blank ws) :
    Needs (textAs kind depth) (ws ++ 34 :: (escaped (Bytes.ofString s) ++ [34])) :=
  (needs_head_text hws s).bind _

theorem needs_value_text (s : String) (depth : Nat) (hws : Blank ws) :
    Needs (value depth) (ws ++ 34 :: (escaped (Bytes.ofString s) ++ [34])) := by
  cases depth with
  | zero => exact (needs_head_text hws s).bind _
  | succ depth => exact (needs_head_text hws s).bind _

theorem needs_nullable {depth : Nat} (h : Needs (decoder depth) (b :: u)) (hws : Blank ws)
    (hb : isBlank b = false) (hn : b ≠ 110) : Needs (nullable decoder depth) (ws ++ b :: u) := by
  have hnull : ∀ s, Ends (decoder depth) (b :: s) →
      Ends (nullable decoder depth) (ws ++ b :: s) := by
    intro s hs
    refine ends_bind (run_peek hws hb s) ?_
    split
    · rename_i heq
      exact absurd (ofUInt8_inj.mp (Option.some.inj heq)) hn
    · exact hs.bind _
  have hnil : Ends (decoder depth) [] := h [] ⟨List.nil_prefix, by simp⟩
  refine needs_append_cons hws (fun r hr => ends_bind (run_peek_of_blank hr) (hnil.bind _))
    fun r hr => hnull r (h (b :: r) (cut_cons_iff.mpr (.inr ⟨r, rfl, hr⟩)))

theorem needs_container {kind : Kind} {list object : Decoder α} {depth : Nat}
    (h : Needs (object depth) u) (hws : Blank ws) :
    Needs (container kind list object (depth + 1)) (ws ++ 123 :: u) :=
  needs_append_cons hws (fun _ hr => (ends_head_of_blank hr).bind _) fun r hr =>
    ends_bind (run_head_object hws r) (h r hr)

theorem needs_listOf {depth : Nat} (h : Needs (elements (decoder depth)) u) (hws : Blank ws) :
    Needs (listOf decoder (depth + 1)) (ws ++ 91 :: u) :=
  needs_append_cons hws (fun _ hr => (ends_head_of_blank hr).bind _) fun r hr =>
    ends_bind (run_head_list hws r) (h r hr)

end Decoder

end Text

/-! ## Lists -/

section Elements

variable {α : Type} {x : Reader α} {toJson : α → Value} {layout : Layout} {level : Nat} {a : α}
  {as read : List α} {s t u ws : Bytes}

theorem short_nextElement (h : Blank ws) : Short (nextElement ws) := by
  rw [nextElement, dropBlank_of_blank h]
  exact ⟨_, rfl, rfl⟩

theorem nextElement_cut (hws : Blank ws) (ht : Solid t) (h : Cut s (44 :: (ws ++ t))) :
    Short (nextElement s) ∨ ∃ r, nextElement s = .ok (.more r) ∧ Cut r t := by
  rcases cut_cons_iff.mp h with rfl | ⟨r, rfl, hr⟩
  · exact .inl (short_nextElement blank_nil)
  have hshort : ∀ {r}, Blank r → Short (nextElement (44 :: r)) := by
    intro r hr
    rw [nextElement, dropBlank_cons rfl]
    exact ⟨.endInValue, by simp [dropBlank_of_blank hr], rfl⟩
  rcases cut_append_iff.mp hr with hr | ⟨q, rfl, hq⟩
  · exact .inl (hshort (hr.blank hws))
  · cases q with
    | nil =>
      rw [List.append_nil]
      exact .inl (hshort hws)
    | cons b q =>
      obtain ⟨v, -, rfl⟩ := hq.exists_append
      have hsolid : Solid (b :: q) := by
        obtain ⟨c, r, heq, hc, hne⟩ := ht
        cases heq
        exact ⟨b, q, rfl, hc, hne⟩
      exact .inr ⟨b :: q, nextElement_more blank_nil hws hsolid, hq⟩

theorem short_elementsFrom (h : Ends x s) (read : List α) : Short (elementsFrom x read s) := by
  obtain ⟨fault, he, hc⟩ := h
  refine ⟨fault, ?_, hc⟩
  rw [elementsFrom]
  split <;> rename_i hr <;> cases he.symm.trans hr
  rfl

theorem short_elementsFrom_next {r : Bytes} (he : x.run s = .ok (a, r)) (hn : Short (nextElement r))
    (read : List α) : Short (elementsFrom x read s) := by
  obtain ⟨fault, hn, hc⟩ := hn
  exact ⟨fault, by rw [elementsFrom_eq he, hn], hc⟩

/-- A part of a list that its reader wants, with something behind it that is read on from. -/
theorem short_elementsFrom_of_cut (takes : Takes x t a) (wants : Wants x t) (apart : Apart u)
    (h : Cut s (t ++ u)) (hnext : ∀ r, Cut r u → Short (nextElement r) ∨
      ∃ q, nextElement r = .ok (.more q) ∧ ∀ read, Short (elementsFrom x read q))
    (read : List α) : Short (elementsFrom x read s) := by
  rcases cut_append_iff.mp h with hs | ⟨r, rfl, hr⟩
  · rcases wants s hs with hends | ⟨a, hrun⟩
    · exact short_elementsFrom hends read
    · exact short_elementsFrom_next hrun (short_nextElement blank_nil) read
  · have hrun := takes r (hr.apart apart)
    rcases hnext r hr with hn | ⟨q, hn, hq⟩
    · exact short_elementsFrom_next hrun hn read
    · rw [elementsFrom_eq hrun, hn]
      exact hq _

theorem short_elements_pieces
    (h : ∀ b ∈ a :: as, Solid ((toJson b).pieces layout level).flatten ∧
      Takes x ((toJson b).pieces layout level).flatten b ∧
      Wants x ((toJson b).pieces layout level).flatten) (hws : Blank ws)
    (hs : Cut s (((toJson a).pieces layout level).flatten ++
      ((Value.elementPieces layout level false (as.map toJson)).flatten ++ (ws ++ [93]))))
    (read : List α) : Short (elementsFrom x read s) := by
  induction as generalizing a s read with
  | nil =>
    obtain ⟨-, takes, wants⟩ := h a List.mem_cons_self
    exact short_elementsFrom_of_cut takes wants (apart_append_cons hws (by decide) []) hs
      (fun r hr => .inl (short_nextElement (hr.blank_of_append hws))) read
  | cons b as ih =>
    obtain ⟨-, takes, wants⟩ := h a List.mem_cons_self
    obtain ⟨solid, -⟩ := h b (by simp)
    rw [List.map_cons, Value.elementPieces] at hs
    simp only [List.flatten_append, Layout.flatten_separator, List.append_assoc,
      List.cons_append] at hs
    refine short_elementsFrom_of_cut takes wants (apart_append_cons blank_nil (by decide) _) hs
      (fun r hr => ?_) read
    refine (nextElement_cut (layout.blank_gap level) (solid.append _) hr).imp_right ?_
    rintro ⟨q, hn, hq⟩
    exact ⟨q, hn, ih (fun c hc => h c (List.mem_cons_of_mem a hc)) hq⟩

theorem needs_list (h : ∀ a ∈ as, Solid ((toJson a).pieces layout (level + 1)).flatten ∧
      Takes x ((toJson a).pieces layout (level + 1)).flatten a ∧
      Wants x ((toJson a).pieces layout (level + 1)).flatten)
    (ht : ((Value.list (as.map toJson)).pieces layout level).flatten = 91 :: t) :
    Needs (elements x) t := by
  have hopen : piece "[" = [91] := rfl
  have hclose : piece "]" = [93] := rfl
  have hblank : ∀ {s}, Blank s → Ends (elements x) s := by
    intro s hs
    refine ⟨.endInList, ?_, rfl⟩
    rw [run_elements, firstElement, dropBlank_of_blank hs]
  cases as with
  | nil =>
    obtain rfl : t = [93] := by cases layout <;> cases ht <;> rfl
    intro s hs
    obtain rfl := cut_singleton_iff.mp hs
    exact hblank blank_nil
  | cons a as =>
    obtain rfl : t = layout.gap (level + 1) ++ (((toJson a).pieces layout (level + 1)).flatten ++
        ((Value.elementPieces layout (level + 1) false (as.map toJson)).flatten ++
          (layout.gap level ++ [93]))) := by
      have hp := ht.symm
      simp only [Value.pieces, hopen, hclose] at hp
      simpa [Value.elementPieces, Layout.flatten_separator_first, Layout.flatten_closing] using hp
    intro s hs
    rcases cut_append_iff.mp hs with hs | ⟨r, rfl, hr⟩
    · exact hblank (hs.blank (layout.blank_gap _))
    · cases r with
      | nil =>
        rw [List.append_nil]
        exact hblank (layout.blank_gap _)
      | cons b r =>
        have hf : firstElement (layout.gap (level + 1) ++ b :: r) = .ok (.more (b :: r)) := by
          obtain ⟨v, -, hv⟩ := hr.exists_append
          obtain ⟨c, q, hq, hc, hne⟩ := ((h a List.mem_cons_self).1).append _
          rw [hq, List.cons_append, List.cons.injEq] at hv
          obtain ⟨rfl, -⟩ := hv
          rw [firstElement, dropBlank_append_cons (layout.blank_gap _) hc]
          exact if_neg hne
        unfold Ends
        rw [run_elements, hf]
        exact short_elements_pieces h (layout.blank_gap level) hr []

end Elements

/-! ## Objects -/

section Members

variable {σ : Type} {member : String → σ → Reader σ} {layout : Layout} {level : Nat} {g g' : σ}
  {members : List (String × Value)} {key : String} {s t u r ws : Bytes}

theorem short_nextKey (h : Blank ws) : Short (nextKey ws) := by
  rw [nextKey, dropBlank_of_blank h]
  exact ⟨_, rfl, rfl⟩

theorem nextKey_cut (hws : Blank ws) (h : Cut s (44 :: (ws ++ 34 :: t))) :
    Short (nextKey s) ∨ ∃ r, nextKey s = .ok (.more r) ∧ Cut r t := by
  rcases cut_cons_iff.mp h with rfl | ⟨r, rfl, hr⟩
  · exact .inl (short_nextKey blank_nil)
  have hshort : ∀ {r}, Blank r → Short (nextKey (44 :: r)) := by
    intro r hr
    rw [nextKey, dropBlank_cons rfl]
    exact ⟨.endInValue, by simp [dropBlank_of_blank hr], rfl⟩
  rcases cut_append_iff.mp hr with hr | ⟨q, rfl, hq⟩
  · exact .inl (hshort (hr.blank hws))
  · rcases cut_cons_iff.mp hq with rfl | ⟨v, rfl, hv⟩
    · rw [List.append_nil]
      exact .inl (hshort hws)
    · exact .inr ⟨v, nextKey_more blank_nil hws v, hv⟩

theorem short_membersFrom (h : Ends Text.reader s) (g : σ) : Short (membersFrom member g s) := by
  obtain ⟨fault, he, hc⟩ := h
  refine ⟨fault, ?_, hc⟩
  rw [membersFrom]
  split <;> rename_i hr <;> cases he.symm.trans hr
  rfl

theorem short_membersFrom_value (hk : Text.reader.run s = .ok (key, r))
    (h : Ends (member key g) r) : Short (membersFrom member g s) := by
  obtain ⟨fault, he, hc⟩ := h
  refine ⟨fault, ?_, hc⟩
  rw [membersFrom]
  split <;> rename_i hr <;> cases hk.symm.trans hr
  split <;> rename_i hr <;> cases he.symm.trans hr
  rfl

theorem short_membersFrom_next (hk : Text.reader.run s = .ok (key, r))
    (hm : (member key g).run r = .ok (g', u)) (hn : Short (nextKey u)) :
    Short (membersFrom member g s) := by
  obtain ⟨fault, hn, hc⟩ := hn
  exact ⟨fault, by rw [membersFrom_eq hk hm, hn], hc⟩

/-- A key and the rest of its member, with something behind them that is read on from. -/
theorem short_membersFrom_of_cut (name : Takes Text.reader t key)
    (takes : Takes (member key g) u g') (wants : Wants (member key g) u) (apart : Apart u)
    (apart' : Apart r) (h : Cut s (t ++ (u ++ r)))
    (hnext : ∀ q, Cut q r → Short (nextKey q) ∨
      ∃ v, nextKey q = .ok (.more v) ∧ Short (membersFrom member g' v)) :
    Short (membersFrom member g s) := by
  rcases cut_append_iff.mp h with hs | ⟨q, rfl, hq⟩
  · exact short_membersFrom (Text.online_reader.needs name s hs) g
  · have hk := name q (hq.apart (apart.append apart'))
    rcases cut_append_iff.mp hq with hq | ⟨v, rfl, hv⟩
    · rcases wants q hq with hends | ⟨g', hrun⟩
      · exact short_membersFrom_value hk hends
      · exact short_membersFrom_next hk hrun (short_nextKey blank_nil)
    · have hrun := takes v (hv.apart apart')
      rcases hnext v hv with hn | ⟨v', hn, hv'⟩
      · exact short_membersFrom_next hk hrun hn
      · rw [membersFrom_eq hk hrun, hn]
        exact hv'

/-- The readers of printed members want what they take. -/
def Asks (member : String → σ → Reader σ) (layout : Layout) (level : Nat)
    (members : List (String × Value)) : Prop :=
  ∀ key v, (key, v) ∈ members → ∀ g g',
    Takes (member key g) (58 :: (layout.space ++ (v.pieces layout level).flatten)) g' →
      Wants (member key g) (58 :: (layout.space ++ (v.pieces layout level).flatten))

theorem short_members_pieces {v : Value}
    (h : Gathers member layout level ((key, v) :: members) g g')
    (hm : Asks member layout level ((key, v) :: members)) (hws : Blank ws)
    (hs : Cut s (escaped (Bytes.ofString key) ++ ([34] ++
      (58 :: (layout.space ++ (v.pieces layout level).flatten) ++
        ((Value.memberPieces layout level false members).flatten ++ (ws ++ [125])))))) :
    Short (membersFrom member g s) := by
  have hkey : ∀ key, Takes Text.reader (escaped (Bytes.ofString key) ++ [34]) key :=
    fun key => (Text.spells_escaped _).takes
  have hapart : ∀ v : Value,
      Apart (58 :: (layout.space ++ (v.pieces layout level).flatten)) :=
    fun v => apart_append_cons blank_nil (by decide) _
  rw [← List.append_assoc] at hs
  induction members generalizing g key v s with
  | nil =>
    cases h with
    | cons value others =>
      rw [Value.memberPieces, List.flatten_nil, List.nil_append] at hs
      have hend : Apart (ws ++ [125]) := apart_append_cons hws (by decide) []
      exact short_membersFrom_of_cut (hkey key) value (hm key v List.mem_cons_self _ _ value)
        (hapart v) hend hs fun r hr => .inl (short_nextKey (hr.blank_of_append hws))
  | cons m members ih =>
    cases h with
    | cons value others =>
      have hrest : (Value.memberPieces layout level false (m :: members)).flatten ++ (ws ++ [125]) =
          44 :: (layout.gap level ++ 34 :: (escaped (Bytes.ofString m.1) ++ [34] ++
            (58 :: (layout.space ++ (m.2.pieces layout level).flatten) ++
              ((Value.memberPieces layout level false members).flatten ++ (ws ++ [125]))))) := by
        rw [Value.memberPieces]
        simp [Layout.flatten_separator, flatten_textPieces, Layout.colon_eq]
      rw [hrest] at hs
      refine short_membersFrom_of_cut (hkey key) value (hm key v List.mem_cons_self _ _ value)
        (hapart v) (apart_append_cons blank_nil (by decide) _) hs fun r hr => ?_
      refine (nextKey_cut (layout.blank_gap level) hr).imp_right ?_
      rintro ⟨q, hn, hq⟩
      exact ⟨q, hn, ih others (fun k w hk => hm k w (List.mem_cons_of_mem _ hk)) hq⟩

theorem needs_object (h : Gathers member layout (level + 1) members g g')
    (hm : Asks member layout (level + 1) members)
    (ht : ((Value.object members).pieces layout level).flatten = 123 :: t) :
    Needs (Reader.members member g) t := by
  have hopen : piece "\x7b" = [123] := rfl
  have hclose : piece "\x7d" = [125] := rfl
  have hblank : ∀ {s}, Blank s → Ends (Reader.members member g) s := by
    intro s hs
    refine ⟨.endInObject, ?_, rfl⟩
    rw [run_members, firstKey, dropBlank_of_blank hs]
  cases members with
  | nil =>
    obtain rfl : t = [125] := by cases layout <;> cases ht <;> rfl
    intro s hs
    obtain rfl := cut_singleton_iff.mp hs
    exact hblank blank_nil
  | cons m members =>
    obtain ⟨key, v⟩ := m
    obtain rfl : t = layout.gap (level + 1) ++ 34 :: (escaped (Bytes.ofString key) ++ ([34] ++
        (58 :: (layout.space ++ (v.pieces layout (level + 1)).flatten) ++
          ((Value.memberPieces layout (level + 1) false members).flatten ++
            (layout.gap level ++ [125]))))) := by
      have hp := ht.symm
      simp only [Value.pieces, hopen, hclose] at hp
      simpa [Value.memberPieces, Layout.flatten_separator_first, Layout.flatten_closing,
        flatten_textPieces, Layout.colon_eq] using hp
    refine needs_append_cons (layout.blank_gap _) (fun _ => hblank) fun r hr => ?_
    have hf : firstKey (layout.gap (level + 1) ++ 34 :: r) = .ok (.more r) := by
      rw [firstKey, dropBlank_append_cons (layout.blank_gap _) rfl]
      rfl
    unfold Ends
    rw [run_members, hf]
    exact short_members_pieces h hm (layout.blank_gap level) hr

end Members

namespace Decoder

variable {α β : Type} {x : Reader α} {t ws : Bytes} {known : Option α} {b : β} {name : String}

theorem wants_colon_bind {f : Unit → Reader α} (h : Wants (f ()) (ws ++ t)) :
    Wants (colon >>= f) (58 :: (ws ++ t)) := by
  intro s hs
  rcases cut_cons_iff.mp hs with rfl | ⟨r, rfl, hr⟩
  · exact .inl ⟨.endInObject, rfl, rfl⟩
  · have hc : (colon >>= f).run (58 :: r) = (f ()).run r := run_bind (run_colon blank_nil r)
    exact (h r hr).imp (fun he => by rw [Ends, hc]; exact he) fun ha => by rwa [hc]

theorem wants_member {note : Option α → β} (h : Wants x (ws ++ t))
    (ht : Takes (once name known x >>= fun value => pure (note value)) (58 :: (ws ++ t)) b) :
    Wants (once name known x >>= fun value => pure (note value)) (58 :: (ws ++ t)) := by
  cases known with
  | some a =>
    have hr := ht [] apart_nil
    cases hr
  | none => exact (wants_colon_bind (h.bind_pure some)).bind_pure note

end Decoder

end Linearizability.Json
