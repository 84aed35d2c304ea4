import Linearizability.Proofs.Trace.Members

/-! # Members that are repeated are refused

A member that is recognized is read only once. A text in which it stands twice is refused, whatever
else stands in it; in a request, it is the kind that tells which members are recognized. So what a
record is read as depends on its recognized members only, and on each of them.
-/

namespace Linearizability

open Json Json.Reader Json.Decoder

variable {depth : Nat} {name key : String} {s t u r ws rest : Bytes}
  {ms : List (String × Bytes)}

theorem Client.follows_decoder (depth : Nat) : Follows .value (Client.decoder depth) :=
  (follows_int64 depth).map Client.mk

theorem Timestamp.follows_decoder (depth : Nat) : Follows .value (Timestamp.decoder depth) :=
  (follows_int64 depth).map Timestamp.mk

/-! ## Answers -/

namespace Response

variable {response : Response} {known known' : Known}

theorem follows_part (depth : Nat) : Follows .value (nullable text depth) :=
  follows_nullable (follows_textAs .text depth)

theorem followsColon_member (key : String) (known : Known) :
    FollowsColon (member depth key known) := by
  unfold member
  split
  · exact (followsColon_once (follows_part depth) _ _).bind fun _ => leads_pure _
  · exact (followsColon_once (follows_part depth) _ _).bind fun _ => leads_pure _
  · exact followsColon_ignored.bind fun _ => leads_pure _

theorem endsList_ofList (depth : Nat) : EndsList true (ofList depth) := by
  refine (staysInList_elementOr (follows_part depth) true _).bind fun status => ?_
  refine (staysInList_elementOr (follows_part depth) false _).bind fun value => ?_
  exact (endsList_endList false).bind fun _ => leads_pure _

theorem follows_orNull (depth : Nat) : Follows .value (orNull depth) := by
  refine (follows_nullable (follows_container _ ?_ ?_ depth)).map _
  · exact fun depth => (endsList_ofList depth).follows
  · exact fun depth => (follows_members followsColon_member _).bind fun known => leads_pure _

def Known.knows (known : Known) (name : String) : Bool :=
  name == "status" && known.status.isSome || name == "value" && known.value.isSome

theorem knows_member (h : (member depth key known).run s = .ok (known', r)) (hn : name ∈ names) :
    (key = name → known.knows name = false) ∧
      known'.knows name = (known.knows name || key == name) := by
  simp only [names, List.mem_cons, List.not_mem_nil, or_false] at hn
  unfold member at h
  split at h
  · obtain ⟨hnone, _, _, _, _, _, hp⟩ := once_bind_cases h
    cases hp
    rcases hn with rfl | rfl <;> simp [Known.knows, hnone]
  · obtain ⟨hnone, _, _, _, _, _, hp⟩ := once_bind_cases h
    cases hp
    rcases hn with rfl | rfl <;> simp [Known.knows, hnone]
  · rename_i hs hv
    obtain ⟨_, _, _, hp⟩ := run_bind_eq_ok_iff.mp h
    cases hp
    have hkey : key ≠ name := by
      rcases hn with rfl | rfl
      · exact hs
      · exact hv
    simp [hkey]

theorem count_le_one (hobject : ObjectSpelled ms u) (hv : ∀ m ∈ ms, Skippable m.2)
    (hws : Blank ws) (h : (orNull depth).run (ws ++ (u ++ rest)) = .ok (response, r))
    (hn : name ∈ names) : (ms.map Prod.fst).count name ≤ 1 := by
  obtain ⟨s, rfl⟩ := hobject.exists_cons
  obtain ⟨_, hnull, -⟩ := run_map_eq_ok_iff.mp h
  obtain ⟨_, hdecoder, -⟩ := nullable_cases hws hnull
  obtain ⟨depth, rfl, hofObject⟩ := container_cases blank_nil hdecoder
  obtain ⟨known, _, hmembers, -⟩ := run_bind_eq_ok_iff.mp hofObject
  have htrail := hobject.trail followsColon_member hv hmembers
  refine (htrail.noted.count_le_one (fun known => known.knows name) ?_).1
  rintro key known known' ⟨s, r, hrun⟩
  exact knows_member hrun hn

end Response

/-! ## Requests -/

namespace Request

variable {request : Request} {variant : Variant} {known known' : Known}
  {g g' : Option Variant × List (String × Value)} {v : Value} {read : List (String × Value)}

theorem follows_reader : Follows .value Variant.reader := by
  refine (follows_textAs .variant 0).bind fun name => ?_
  split
  · exact leads_fail _
  · exact leads_pure _

theorem followsColon_member (key : String) (g : Option Variant × List (String × Value)) :
    FollowsColon (member depth key g) := by
  unfold member
  split
  · exact (followsColon_once follows_reader _ _).bind fun _ => leads_pure _
  · exact followsColon_bind ((follows_value depth).bind fun v => leads_pure _)

theorem follows_decoder (depth : Nat) : Follows .value (decoder depth) := by
  refine follows_container _ (fun depth => EndsList.follows ?_) (fun depth => ?_) depth
  · refine (staysInList_element? follows_reader true).bind fun found => ?_
    cases found with
    | none =>
      intro s request r h
      cases h
    | some variant =>
      exact (endsList_moreElements (follows_value depth)).bind fun values => leads_lift _
  · refine (follows_members followsColon_member _).bind fun g => ?_
    obtain ⟨variant, read⟩ := g
    cases variant with
    | none => exact leads_fail _
    | some variant => exact leads_lift _

theorem member_cases (h : (member depth key g).run s = .ok (g', r)) :
    (key = "type" ∧ g.1 = none ∧ ∃ variant, g' = (some variant, g.2)) ∨
      key ≠ "type" ∧ ∃ v, g' = (g.1, (key, v) :: g.2) := by
  by_cases hk : key = "type"
  · subst hk
    rw [member_type] at h
    obtain ⟨hnone, _, variant, _, _, _, hp⟩ := once_bind_cases h
    cases hp
    exact .inl ⟨rfl, hnone, variant, rfl⟩
  · rw [member_other hk] at h
    obtain ⟨_, _, _, h⟩ := run_bind_eq_ok_iff.mp h
    obtain ⟨v, _, _, hp⟩ := run_bind_eq_ok_iff.mp h
    cases hp
    exact .inr ⟨hk, v, rfl⟩

theorem knows_kind_of_member (h : (member depth key g).run s = .ok (g', r)) :
    (key = "type" → g.1.isSome = false) ∧ g'.1.isSome = (g.1.isSome || key == "type") := by
  rcases member_cases h with ⟨rfl, hnone, variant, rfl⟩ | ⟨hk, v, rfl⟩
  · simp [hnone]
  · simp [hk]

theorem kind_of_member (h : (member depth key g).run s = .ok (g', r))
    (hg : g.1 = some variant) : g'.1 = some variant := by
  rcases member_cases h with ⟨-, hnone, -⟩ | ⟨-, v, rfl⟩
  · cases hg.symm.trans hnone
  · exact hg

theorem kind_of_trail (h : Trail (member depth) ms g g') (hkind : ("type", t) ∈ ms)
    (hstring : Text.StringSpelled variant.name t) : g'.1 = some variant := by
  obtain ⟨g₁, g₂, _, ws, ws', rest, hws, hws', hr, hrun, hothers⟩ := h.exists_run hkind
  refine hothers.keeps (p := fun g => g.1 = some variant)
    (fun _ _ _ _ _ hm hg => kind_of_member hm hg) ?_
  rw [member_type] at hrun
  obtain ⟨-, _, _, _, hc, ha, hp⟩ := once_bind_cases hrun
  cases hp
  rw [run_colon hws] at hc
  cases hc
  have hread := Variant.reads_of_spelled hstring ws' hws' rest hr
  rw [List.append_assoc, ha] at hread
  cases hread
  rfl

theorem names_of_trail (h : Trail (member depth) ms g g') :
    g'.2.reverse.map Prod.fst =
      g.2.reverse.map Prod.fst ++ (ms.map Prod.fst).filter (· ≠ "type") := by
  induction h with
  | nil => simp
  | cons _ _ _ run _ ih =>
    rw [ih]
    rcases member_cases run with ⟨rfl, -, variant, rfl⟩ | ⟨hk, v, rfl⟩
    · simp
    · simp [hk]

def Known.knows (known : Known) (name : String) : Bool :=
  name == "key" && known.key.isSome || name == "value" && known.value.isSome

theorem exists_of_map_asText {f : String → Known} (h : (asText v).map f = .ok known) :
    ∃ s, f s = known := by
  cases v <;> cases h
  exact ⟨_, rfl⟩

theorem knows_note (h : note variant known key v = .ok known') (hn : name ∈ variant.names) :
    (key = name → known.knows name = false) ∧
      known'.knows name = (known.knows name || key == name) := by
  have hname : name = "key" ∨ name = "value" ∧ variant = .put := by
    cases variant <;> simpa [Variant.names] using hn
  rw [note] at h
  split at h
  · rename_i hk
    subst hk
    split at h
    · cases h
    · rename_i hnone
      obtain ⟨_, rfl⟩ := exists_of_map_asText h
      rcases hname with rfl | ⟨rfl, -⟩ <;> simp_all [Known.knows]
  · rename_i hk
    split at h
    · rename_i hv
      obtain ⟨rfl, -⟩ := hv
      split at h
      · cases h
      · rename_i hnone
        obtain ⟨_, rfl⟩ := exists_of_map_asText h
        rcases hname with rfl | ⟨rfl, -⟩ <;> simp_all [Known.knows]
    · rename_i hv
      cases h
      have hkey : key ≠ name := by
        rintro rfl
        rcases hname with rfl | ⟨rfl, hput⟩
        · exact hk rfl
        · exact hv ⟨rfl, hput⟩
      simp [hkey]

theorem noted_of_ofMembers (h : ofMembers variant known read = .ok request) :
    ∃ known', Noted (fun name known known' => ∃ v, note variant known name v = .ok known')
      (read.map Prod.fst) known known' := by
  induction read generalizing known with
  | nil => exact ⟨known, .nil known⟩
  | cons m read ih =>
    obtain ⟨name, v⟩ := m
    rw [ofMembers] at h
    split at h
    · cases h
    · rename_i hnote
      obtain ⟨known', hothers⟩ := ih h
      exact ⟨known', .cons ⟨v, hnote⟩ hothers⟩

theorem count_le_one (hobject : ObjectSpelled ms u) (hv : ∀ m ∈ ms, Skippable m.2)
    (hkind : ("type", t) ∈ ms) (hstring : Text.StringSpelled variant.name t)
    (hws : Blank ws) (h : (decoder depth).run (ws ++ (u ++ rest)) = .ok (request, r))
    (hn : name ∈ "type" :: variant.names) : (ms.map Prod.fst).count name ≤ 1 := by
  obtain ⟨s, rfl⟩ := hobject.exists_cons
  obtain ⟨depth, rfl, hofObject⟩ := container_cases hws h
  obtain ⟨⟨kind, read⟩, _, hmembers, hreq⟩ := run_bind_eq_ok_iff.mp hofObject
  have htrail := hobject.trail followsColon_member hv hmembers
  by_cases hname : name = "type"
  · subst hname
    refine (htrail.noted.count_le_one (fun g => g.1.isSome) ?_).1
    rintro key g g' ⟨s, r, hrun⟩
    exact knows_kind_of_member hrun
  · have hmem : name ∈ variant.names := (List.mem_cons.mp hn).resolve_left hname
    obtain rfl : kind = some variant := kind_of_trail htrail hkind hstring
    obtain ⟨_, _, hrequired, hlift⟩ := run_bind_eq_ok_iff.mp hreq
    cases hrequired
    obtain ⟨known', hnoted⟩ := noted_of_ofMembers (lift_cases hlift)
    have hstep : ∀ key known known', (∃ v, note variant known key v = .ok known') →
        (key = name → known.knows name = false) ∧
          known'.knows name = (known.knows name || key == name) := by
      rintro key known known' ⟨v, hnote⟩
      exact knows_note hnote hmem
    have hle := (hnoted.count_le_one (fun known => known.knows name) hstep).1
    rw [names_of_trail htrail] at hle
    simpa [hname] using hle

end Request

/-! ## Records -/

namespace Record

variable {record : Record} {known known' : Known}

theorem followsColon_member (key : String) (known : Known) :
    FollowsColon (member depth key known) := by
  unfold member
  split
  · exact (followsColon_once (Client.follows_decoder depth) _ _).bind fun _ => leads_pure _
  · exact (followsColon_once (Request.follows_decoder depth) _ _).bind fun _ => leads_pure _
  · exact (followsColon_once (Timestamp.follows_decoder depth) _ _).bind fun _ => leads_pure _
  · exact (followsColon_once (Response.follows_orNull depth) _ _).bind fun _ => leads_pure _
  · exact (followsColon_once (Timestamp.follows_decoder depth) _ _).bind fun _ => leads_pure _
  · exact followsColon_ignored.bind fun _ => leads_pure _

def Known.knows (known : Known) (name : String) : Bool :=
  name == "client_id" && known.client.isSome || name == "input" && known.input.isSome ||
    name == "call" && known.call.isSome || name == "output" && known.output.isSome ||
    name == "return_time" && known.ret.isSome

theorem knows_member (h : (member depth key known).run s = .ok (known', r)) (hn : name ∈ names) :
    (key = name → known.knows name = false) ∧
      known'.knows name = (known.knows name || key == name) := by
  have hname := hn
  simp only [names, List.mem_cons, List.not_mem_nil, or_false] at hname
  by_cases hk : key ∈ names
  · unfold member at h
    split at h
    case h_6 h₁ h₂ h₃ h₄ h₅ => simp_all [names]
    all_goals
      obtain ⟨hnone, _, _, _, _, _, hp⟩ := once_bind_cases h
      cases hp
      rcases hname with rfl | rfl | rfl | rfl | rfl <;> simp [Known.knows, hnone]
  · rw [member_other hk] at h
    obtain ⟨_, _, _, hp⟩ := run_bind_eq_ok_iff.mp h
    cases hp
    have hkey : key ≠ name := fun he => hk (he ▸ hn)
    simp [hkey]

/-- A member that is recognized is repeated: one of the record, of its answer, or of its request,
the kind of which tells what is recognized. -/
inductive Repeats : List (String × Bytes) → Prop where
  | record {ms : List (String × Bytes)} {name : String} (recognized : name ∈ names)
      (twice : 1 < (ms.map Prod.fst).count name) : Repeats ms
  | output {ms ms' : List (String × Bytes)} {u : Bytes} {name : String} (mem : ("output", u) ∈ ms)
      (object : ObjectSpelled ms' u) (values : ∀ m ∈ ms', Skippable m.2)
      (recognized : name ∈ Response.names) (twice : 1 < (ms'.map Prod.fst).count name) :
    Repeats ms
  | input {ms ms' : List (String × Bytes)} {u t : Bytes} {name : String}
      {variant : Request.Variant} (mem : ("input", u) ∈ ms) (object : ObjectSpelled ms' u)
      (values : ∀ m ∈ ms', Skippable m.2) (kind : ("type", t) ∈ ms')
      (string : Text.StringSpelled variant.name t) (recognized : name ∈ "type" :: variant.names)
      (twice : 1 < (ms'.map Prod.fst).count name) : Repeats ms

theorem not_repeats_of_trail (h : Trail (member depth) ms known known') : ¬ Repeats ms := by
  rintro (⟨recognized, twice⟩ | ⟨mem, object, values, recognized, twice⟩ |
    ⟨mem, object, values, kind, string, recognized, twice⟩)
  · rename_i name
    have hle := h.noted.count_le_one (fun known => known.knows name) (by
      rintro key known known' ⟨s, r, hrun⟩
      exact knows_member hrun recognized)
    omega
  · obtain ⟨g, g', _, ws, ws', rest, hws, hws', -, hrun, -⟩ := h.exists_run mem
    rw [member_output] at hrun
    obtain ⟨-, _, response, _, hc, hdecoder, -⟩ := once_bind_cases hrun
    rw [run_colon hws] at hc
    cases hc
    have hle := Response.count_le_one object values hws' hdecoder recognized
    omega
  · obtain ⟨g, g', _, ws, ws', rest, hws, hws', -, hrun, -⟩ := h.exists_run mem
    rw [member_input] at hrun
    obtain ⟨-, _, request, _, hc, hdecoder, -⟩ := once_bind_cases hrun
    rw [run_colon hws] at hc
    cases hc
    have hle := Request.count_le_one object values kind string hws' hdecoder recognized
    omega

theorem exists_error_of_repeats (hobject : ObjectSpelled ms t) (hv : ∀ m ∈ ms, Skippable m.2)
    (hms : Repeats ms) (hws : Blank ws) (depth : Nat) (rest : Bytes) :
    ∃ fault, (decoder depth).run (ws ++ (t ++ rest)) = .error fault := by
  cases h : (decoder depth).run (ws ++ (t ++ rest)) with
  | error fault => exact ⟨fault, rfl⟩
  | ok found =>
    obtain ⟨record, r⟩ := found
    obtain ⟨s, rfl⟩ := hobject.exists_cons
    obtain ⟨depth, rfl, hofObject⟩ := container_cases hws h
    obtain ⟨known, _, hmembers, -⟩ := run_bind_eq_ok_iff.mp hofObject
    exact absurd hms (not_repeats_of_trail (hobject.trail followsColon_member hv hmembers))

end Record

theorem decode_of_reads {α : Type} {decoder : Decoder α} {a : α} {ws' : Bytes}
    (h : Reads (decoder greatestDepth) t a) (hws : Blank ws) (hws' : Blank ws') :
    decode decoder (ws ++ (t ++ ws')) = .ok a := by
  have hrun := h ws hws ws' (apart_of_blank hws')
  have hnil : dropBlank ws' = [] := by
    have hd := dropBlank_append hws' []
    rwa [List.append_nil] at hd
  rw [List.append_assoc] at hrun
  simp only [decode, hrun, hnil, List.isEmpty_nil, if_true]

/-- All texts with the members of a record are read as that record, whatever their order and their
spelling and whatever members of other names stand between them; a text in which a recognized
member is repeated is refused. -/
theorem records_read_from_members :
    (∀ record depth t, Record.Spelled depth record t →
      Reads (Record.decoder (depth + 2)) t record) ∧
    (∀ record t ws ws', Record.Spelled (greatestDepth - 2) record t → Blank ws → Blank ws' →
      decode Record.decoder (ws ++ (t ++ ws')) = .ok record) ∧
    ∀ ms t ws rest, ObjectSpelled ms t → (∀ m ∈ ms, Skippable m.2) → Record.Repeats ms →
      Blank ws →
      (∀ depth, ∃ fault, (Record.decoder depth).run (ws ++ (t ++ rest)) = .error fault) ∧
        ∃ fault, decode Record.decoder (ws ++ (t ++ rest)) = .error fault := by
  refine ⟨fun record depth t h => h.reads_decoder, ?_, ?_⟩
  · intro record t ws ws' h hws hws'
    exact decode_of_reads h.reads_decoder hws hws'
  · intro ms t ws rest hobject hv hms hws
    have herror := fun depth => Record.exists_error_of_repeats hobject hv hms hws depth rest
    obtain ⟨fault, hrun⟩ := herror greatestDepth
    exact ⟨herror, fault, by simp only [decode, hrun]⟩

namespace OddSpelling

def record : Record := ⟨⟨-1⟩, .get "k", ⟨2⟩, Response.none, ⟨3⟩⟩

/-- The kind comes last and is escaped; the values are not those of a put. -/
def input : String :=
  "\x7b\"value\":1,\"key\":\"k\",\"value\":1,\"\\u0074ype\":\"Get\"\x7d"

/-- Members stand in another order, among members of other names. -/
def text : String :=
  "\x7b\"return_time\":3,\"x\":1,\"output\":null,\"input\":" ++ input ++
    ",\"x\":1,\"client_id\":-1,\"call\":2\x7d"

def put : String := "\x7b\"value\":\"k\",\"type\":\"Put\",\"value\":\"k\"\x7d"

def repeated : String := "\x7b\"input\":" ++ put ++ "\x7d"

def one : Bytes := Bytes.ofString "1"

def inputMembers : List (String × Bytes) :=
  [("value", one), ("key", Bytes.ofString "\"k\""), ("value", one),
    ("type", Bytes.ofString "\"Get\"")]

def putMembers : List (String × Bytes) :=
  [("value", Bytes.ofString "\"k\""), ("type", Bytes.ofString "\"Put\""),
    ("value", Bytes.ofString "\"k\"")]

def members : List (String × Bytes) :=
  [("return_time", Bytes.ofString "3"), ("x", one), ("output", Bytes.ofString "null"),
    ("input", Bytes.ofString input), ("x", one), ("client_id", Bytes.ofString "-1"),
    ("call", Bytes.ofString "2")]

theorem member_plain {name : String} {u : Bytes} (h : name.toList.all Text.isPlain = true) :
    MemberSpelled (name, u) (34 :: (Bytes.ofString name ++ [34]) ++ ([] ++ 58 :: ([] ++ u))) :=
  .mk (Text.stringSpelled_plain h) blank_nil blank_nil

theorem string_k : Text.StringSpelled "k" (Bytes.ofString "\"k\"") :=
  Text.stringSpelled_plain (s := "k") rfl

theorem typeSpelled : Text.StringSpelled "type" (Bytes.ofString "\"\\u0074ype\"") := by
  have hunit : Text.UnitSpelled 't'.toNat (Bytes.ofString "0074") :=
    Text.UnitSpelled.mk (i := 0) (j := 0) (k := 7) (l := 4) ⟨by decide, by decide⟩
      ⟨by decide, by decide⟩ ⟨by decide, by decide⟩ ⟨by decide, by decide⟩
  have hothers : Text.CharsSpelled ['y', 'p', 'e'] _ := Text.charsSpelled_plain rfl
  have hchars : Text.CharsSpelled "type".toList _ := .cons (.unit hunit) hothers
  exact ⟨hchars⟩

theorem putSpelled : ObjectSpelled putMembers (Bytes.ofString put) :=
  ObjectSpelled.some blank_nil
    (.more (member_plain rfl) blank_nil blank_nil
      (.more (member_plain rfl) blank_nil blank_nil
        (.last (member_plain rfl) blank_nil)))

theorem inputSpelled : ObjectSpelled inputMembers (Bytes.ofString input) :=
  ObjectSpelled.some blank_nil
    (.more (member_plain rfl) blank_nil blank_nil
      (.more (member_plain rfl) blank_nil blank_nil
        (.more (member_plain rfl) blank_nil blank_nil
          (.last (.mk typeSpelled blank_nil blank_nil) blank_nil))))

theorem membersSpelled : ObjectSpelled members (Bytes.ofString text) := by
  have h : ObjectSpelled members _ := ObjectSpelled.some blank_nil
    (.more (member_plain rfl) blank_nil blank_nil
      (.more (member_plain rfl) blank_nil blank_nil
        (.more (member_plain rfl) blank_nil blank_nil
          (.more (member_plain rfl) blank_nil blank_nil
            (.more (member_plain rfl) blank_nil blank_nil
              (.more (member_plain rfl) blank_nil blank_nil
                (.last (member_plain rfl) blank_nil)))))))
  exact h

theorem digitSpelled {n : Int64} {b : Bool} {d : Nat} (h : Literal.Whole [d])
    (hz : ¬ (b = true ∧ Literal.toInt ⟨b, [d], none, none⟩ = 0))
    (hn : n.toInt = Literal.toInt ⟨b, [d], none, none⟩) :
    IntegerSpelled n ((if b then [45] else []) ++ [d].map digitByte) :=
  .mk (Literal.spelled_integer h b) ⟨rfl, rfl, hz⟩ hn

theorem holdsInput : ∀ m ∈ inputMembers, m.1 ∈ record.input.names →
    record.input.Holds m.1 m.2 := by
  have hkey : record.input.Holds "key" (Bytes.ofString "\"k\"") := .text rfl string_k
  have hkind : record.input.Holds "type" (Bytes.ofString "\"Get\"") :=
    .kind (Text.stringSpelled_plain (s := "Get") rfl)
  simp only [inputMembers, List.forall_mem_cons]
  refine ⟨fun h => ?_, fun _ => hkey, fun h => ?_, fun _ => hkind, by simp⟩
  · exact absurd h (by decide)
  · exact absurd h (by decide)

theorem integer_one : IntegerSpelled 1 one :=
  digitSpelled (n := 1) (b := false) (d := 1) (by simp [Literal.Whole]) (by decide) (by decide)

theorem skippable_one : Skippable one :=
  skippable_of_reads (follows_int64 0) integer_one.reads_int64

theorem readable_one : Readable 125 one := ⟨.number (.integer 1), rfl⟩

theorem spelled_input : record.input.Spelled 125 (Bytes.ofString input) := by
  refine ⟨inputMembers, inputSpelled, by decide, by decide, holdsInput, ?_⟩
  simp only [inputMembers, List.forall_mem_cons]
  refine ⟨fun _ => readable_one, fun h => ?_, fun _ => readable_one, fun h => ?_, by simp⟩
  · exact absurd (by decide) h
  · exact absurd (by decide) h

theorem spelled : Record.Spelled 125 record (Bytes.ofString text) := by
  have hcall : IntegerSpelled 2 (Bytes.ofString "2") :=
    digitSpelled (n := 2) (b := false) (d := 2) (by simp [Literal.Whole]) (by decide) (by decide)
  have hret : IntegerSpelled 3 (Bytes.ofString "3") :=
    digitSpelled (n := 3) (b := false) (d := 3) (by simp [Literal.Whole]) (by decide) (by decide)
  have hclient : IntegerSpelled (-1) (Bytes.ofString "-1") :=
    digitSpelled (n := -1) (b := true) (d := 1) (by simp [Literal.Whole]) (by decide) (by decide)
  refine ⟨members, membersSpelled, by decide, by decide, ?_, ?_⟩
  · simp only [members, List.forall_mem_cons]
    refine ⟨fun _ => .ret hret, fun h => ?_, fun _ => .output .null, fun _ => .input spelled_input,
      fun h => ?_, fun _ => .client hclient, fun _ => .call hcall, by simp⟩
    · exact absurd h (by decide)
    · exact absurd h (by decide)
  · simp only [members, List.forall_mem_cons]
    refine ⟨fun h => ?_, fun _ => skippable_one, fun h => ?_, fun h => ?_, fun _ => skippable_one,
      fun h => ?_, fun h => ?_, by simp⟩
    all_goals exact absurd (by decide) h

theorem skippable_put : ∀ m ∈ putMembers, Skippable m.2 := by
  have hk : Skippable (Bytes.ofString "\"k\"") :=
    skippable_of_reads (follows_textAs .text 0) (reads_textAs_of_spelled string_k .text)
  have hput : Skippable (Bytes.ofString "\"Put\"") :=
    skippable_of_reads (follows_textAs .text 0)
      (reads_textAs_of_spelled (Text.stringSpelled_plain (s := "Put") rfl) .text)
  simp only [putMembers, List.forall_mem_cons]
  exact ⟨hk, hput, hk, by simp⟩

end OddSpelling

open OddSpelling in
theorem records_read_from_members_oddSpelling :
    decode Record.decoder (Bytes.ofString text) = .ok record ∧
      ∃ fault, decode Record.decoder (Bytes.ofString repeated) = .error fault := by
  obtain ⟨-, hread, hrefused⟩ := records_read_from_members
  have hget := hread record (Bytes.ofString text) [] [] spelled blank_nil blank_nil
  rw [List.nil_append, List.append_nil] at hget
  have hobject : ObjectSpelled [("input", Bytes.ofString put)] _ :=
    ObjectSpelled.some blank_nil (.last (member_plain rfl) blank_nil)
  have hskippable : ∀ m ∈ [("input", Bytes.ofString put)], Skippable m.2 :=
    List.forall_mem_singleton.mpr (putSpelled.skippable skippable_put)
  have hkind : ("type", Bytes.ofString "\"Put\"") ∈ putMembers := by decide
  have hvalue : "value" ∈ "type" :: Request.Variant.put.names := by decide
  have hrepeats : Record.Repeats [("input", Bytes.ofString put)] :=
    .input List.mem_cons_self putSpelled skippable_put hkind
      (Text.stringSpelled_plain (s := Request.Variant.put.name) rfl) hvalue (by decide)
  have hput := (hrefused _ _ [] [] hobject hskippable hrepeats blank_nil).2
  rw [List.nil_append, List.append_nil] at hput
  exact ⟨hget, hput⟩

end Linearizability
