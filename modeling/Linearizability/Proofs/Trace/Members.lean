import Linearizability.Proofs.Json.Members
import Linearizability.Proofs.Trace.Integer

/-! # Records are read from all their spellings

The members of a record, of its request and of its answer may stand in any order, with any blanks
between the parts of the text and any spelling of the strings. Members of other names may stand
between them, and what is absent may be left out or be null. All these texts are read as the record.
-/

namespace Linearizability

open Json Json.Reader Json.Decoder

variable {depth : Nat} {name key s : String} {n : Int64} {t u : Bytes} {seen : List String}

/-- The spellings of an integer are those of a literal that denotes it. -/
inductive IntegerSpelled : Int64 → Bytes → Prop where
  | mk {n : Int64} {literal : Literal} {t : Bytes} (spelled : literal.Spelled t)
      (isInteger : literal.IsInteger) (denotes : n.toInt = literal.toInt) : IntegerSpelled n t

theorem IntegerSpelled.reads_int64 (h : IntegerSpelled n t) : Reads (int64 depth) t n := by
  obtain ⟨spelled, isInteger, denotes⟩ := h
  intro ws hws rest hr
  rw [List.append_assoc]
  exact (run_int64_iff spelled hws hr).mpr ⟨rfl, isInteger, denotes⟩

theorem reads_textAs_of_spelled (h : Text.StringSpelled s t) (kind : Kind) :
    Reads (textAs kind depth) t s :=
  h.reads_head.bind_pure rfl

theorem reads_value_of_spelled (h : Text.StringSpelled s t) :
    Reads (value depth) t (.text s) := by
  cases depth with
  | zero => exact h.reads_head.bind_pure rfl
  | succ depth => exact h.reads_head.bind_pure rfl

/-! ## Answers -/

/-- The spellings of a part of an answer, or null if it is absent. -/
inductive PartSpelled : Option String → Bytes → Prop where
  | null : PartSpelled none (Bytes.ofString "null")
  | text {s : String} {t : Bytes} (string : Text.StringSpelled s t) : PartSpelled (some s) t

theorem PartSpelled.reads {part : Option String} (h : PartSpelled part t) :
    Reads (nullable Decoder.text depth) t part := by
  cases h with
  | null => exact reads_nullable_null _ _
  | text string =>
    have hr : Reads (Decoder.text depth) _ _ := reads_textAs_of_spelled string .text
    obtain ⟨_⟩ := string
    exact reads_nullable hr rfl (by decide)

namespace Response

variable {response : Response}

def names : List String := ["status", "value"]

def needed (response : Response) : List String :=
  (memberOf "status" response.status ++ memberOf "value" response.value).map Prod.fst

inductive Holds (response : Response) : String → Bytes → Prop where
  | status {t : Bytes} (part : PartSpelled response.status t) : Holds response "status" t
  | value {t : Bytes} (part : PartSpelled response.value t) : Holds response "value" t

def Spelled (response : Response) (t : Bytes) : Prop :=
  ∃ ms, ObjectSpelled ms t ∧ Carries names response.needed response.Holds Skippable ms

/-- The spellings of an answer as an object, or as null if nothing was observed. -/
inductive SpelledOrNull : Response → Bytes → Prop where
  | null : SpelledOrNull Response.none (Bytes.ofString "null")
  | object {response : Response} {t : Bytes} (spelled : response.Spelled t) :
    SpelledOrNull response t

def noted (response : Response) (seen : List String) : Known where
  status := if "status" ∈ seen then some response.status else .none
  value := if "value" ∈ seen then some response.value else .none

theorem member_status (known : Known) : member depth "status" known =
    (once "status" known.status (nullable text depth) >>= fun status =>
      pure { known with status }) := rfl

theorem member_value (known : Known) : member depth "value" known =
    (once "value" known.value (nullable text depth) >>= fun value =>
      pure { known with value }) := rfl

theorem member_other (h : key ∉ names) (known : Known) :
    member depth key known = (ignored >>= fun _ => pure known) := by
  unfold member
  split
  case h_3 => rfl
  all_goals exact absurd (by decide) h

theorem noted_other (response : Response) (h : key ∉ names) (seen : List String) :
    response.noted (key :: seen) = response.noted seen := by
  simp only [names, List.mem_cons, List.not_mem_nil, or_false, not_or] at h
  simp [noted, Ne.symm h.1, Ne.symm h.2]

theorem takesMember (hknown : key ∈ names → key ∉ seen ∧ response.Holds key u)
    (hother : key ∉ names → Skippable u) :
    TakesMember (member depth key (response.noted seen)) u (response.noted (key :: seen)) := by
  by_cases hk : key ∈ names
  · obtain ⟨hnew, hholds⟩ := hknown hk
    cases hholds with
    | status part =>
      rw [member_status]
      exact takesMember_once part.reads (if_neg hnew) (by simp [noted])
    | value part =>
      rw [member_value]
      exact takesMember_once part.reads (if_neg hnew) (by simp [noted])
  · rw [member_other hk, noted_other response hk]
    exact (takesMember_ignored (hother hk)).bind_pure rfl

theorem join_noted (h : ∀ name ∈ response.needed, name ∈ seen) :
    (response.noted seen).status.join = response.status ∧
      (response.noted seen).value.join = response.value := by
  obtain ⟨status, value⟩ := response
  constructor
  · cases status with
    | none => simp only [noted]; split <;> rfl
    | some status => simp [noted, h "status" (by simp [needed, memberOf])]
  · cases value with
    | none => simp only [noted]; split <;> rfl
    | some value => simp [noted, h "value" (by simp [needed, memberOf])]

theorem Spelled.reads_decoder (h : response.Spelled t) :
    Reads (decoder (depth + 1)) t response := by
  obtain ⟨ms, hobject, hcarries⟩ := h
  obtain ⟨_, hsteps, rfl⟩ : ∃ known, Steps (member depth) ms {} known ∧
      known = response.noted (ms.map Prod.fst).reverse := by
    refine hcarries.exists_steps (P := fun seen known => known = response.noted seen) ?_ rfl
    rintro seen _ key u rfl hknown hother
    exact ⟨_, takesMember hknown hother, rfl⟩
  obtain ⟨u, rfl, htakes⟩ := hobject.exists_takes hsteps
  have hseen : ∀ name ∈ response.needed, name ∈ (ms.map Prod.fst).reverse := by
    simpa using hcarries.present
  obtain ⟨hstatus, hvalue⟩ := join_noted hseen
  refine reads_container (htakes.bind_pure ?_)
  rw [hstatus, hvalue]

theorem SpelledOrNull.reads_orNull (h : SpelledOrNull response t) :
    Reads (orNull (depth + 1)) t response := by
  cases h with
  | null => exact (reads_nullable_null decoder _).map fun response => response.getD Response.none
  | object spelled =>
    have hr : Reads (decoder (depth + 1)) t response := spelled.reads_decoder
    obtain ⟨ms, hobject, -⟩ := spelled
    obtain ⟨u, rfl⟩ := hobject.exists_cons
    exact (reads_nullable hr rfl (by decide)).map fun response => response.getD Response.none

end Response

/-! ## Requests -/

namespace Request

variable {request : Request} {v : Value} {read : List (String × Value)}

def variant : Request → Variant
  | put _ _ => .put
  | get _ => .get
  | delete _ => .delete

/-- The members that are recognized besides the kind. -/
def Variant.names : Variant → List String
  | put => ["key", "value"]
  | get | delete => ["key"]

def names (request : Request) : List String := "type" :: request.variant.names

/-- The text that a request has under a name. -/
def text? (request : Request) (name : String) : Option String :=
  if name = "key" then some request.key
  else if name = "value" then
    match request with
    | put _ value => some value
    | get _ | delete _ => none
  else none

inductive Holds (request : Request) : String → Bytes → Prop where
  | kind {t : Bytes} (string : Text.StringSpelled request.variant.name t) : Holds request "type" t
  | text {name s : String} {t : Bytes} (text : request.text? name = some s)
      (string : Text.StringSpelled s t) : Holds request name t

/-- The spellings of a request. Members that are not recognized are read all the same, so their
values may be nested to the given depth at most. -/
def Spelled (depth : Nat) (request : Request) (t : Bytes) : Prop :=
  ∃ ms, ObjectSpelled ms t ∧
    Carries request.names request.names request.Holds (Readable depth) ms

theorem text?_eq_none (h : name ∉ request.variant.names) : request.text? name = none := by
  cases request <;> simp_all [variant, Variant.names, text?]

theorem mem_names_of_text? (h : request.text? name = some s) : name ∈ request.variant.names := by
  by_contra hn
  rw [text?_eq_none hn] at h
  cases h

/-! Members are noted one after another, whatever their order. -/

def noted (request : Request) (seen : List String) : Known where
  key := if "key" ∈ seen then request.text? "key" else none
  value := if "value" ∈ seen then request.text? "value" else none

theorem note_noted (h : ∀ s, request.text? name = some s → name ∉ seen ∧ v = .text s) :
    note request.variant (request.noted seen) name v = .ok (request.noted (name :: seen)) := by
  rw [note]
  split
  · rename_i hk
    subst hk
    obtain ⟨hnew, rfl⟩ := h _ rfl
    simp [noted, hnew, asText, Except.map, text?]
  · rename_i hk
    split
    · rename_i hv
      obtain ⟨rfl, hput⟩ := hv
      cases request with
      | put key value =>
        obtain ⟨hnew, rfl⟩ := h _ rfl
        simp [noted, hnew, asText, Except.map, text?]
      | get | delete => cases hput
    · rename_i hv
      have hvalue : name = "value" → request.text? "value" = none := by
        rintro rfl
        cases request with
        | put key value => exact absurd ⟨rfl, rfl⟩ hv
        | get | delete => rfl
      by_cases hn : name = "value"
      · simp [noted, Ne.symm hk, hvalue hn]
      · simp [noted, Ne.symm hk, Ne.symm hn]

theorem ofMembers_noted
    (hnew : ∀ name ∈ request.variant.names, (read.map Prod.fst).count name + seen.count name ≤ 1)
    (hv : ∀ m ∈ read, ∀ s, request.text? m.1 = some s → m.2 = .text s) :
    ofMembers request.variant (request.noted seen) read =
      ofKnown request.variant (request.noted ((read.map Prod.fst).reverse ++ seen)) := by
  induction read generalizing seen with
  | nil => rfl
  | cons m read ih =>
    obtain ⟨name, v⟩ := m
    rw [List.forall_mem_cons] at hv
    have hnote : note request.variant (request.noted seen) name v =
        .ok (request.noted (name :: seen)) := by
      refine note_noted fun s hs => ⟨fun hmem => ?_, hv.1 s hs⟩
      have hle := hnew name (mem_names_of_text? hs)
      have hpos := List.count_pos_iff.mpr hmem
      simp only [List.map_cons, List.count_cons_self] at hle
      omega
    rw [ofMembers, hnote]
    refine (ih (fun name hn => ?_) hv.2).trans (by simp)
    have hle := hnew name hn
    simp only [List.map_cons, List.count_cons] at hle ⊢
    omega

theorem ofKnown_noted (h : ∀ name ∈ request.variant.names, name ∈ seen) :
    ofKnown request.variant (request.noted seen) = .ok request := by
  cases request <;> simp_all [variant, Variant.names, noted, text?, ofKnown, Request.key]

/-- The kind and the other members have been read, the last one first. -/
structure Gathered (request : Request) (seen : List String)
    (g : Option Variant × List (String × Value)) : Prop where
  kind : g.1 = if "type" ∈ seen then some request.variant else none
  names : g.2.map Prod.fst = seen.filter (· ≠ "type")
  texts : ∀ m ∈ g.2, ∀ s, request.text? m.1 = some s → m.2 = .text s

theorem gathered_nil (request : Request) : request.Gathered [] (none, []) :=
  ⟨rfl, rfl, by simp⟩

theorem Variant.reads_of_spelled {variant : Variant}
    (h : Text.StringSpelled variant.name t) : Reads Variant.reader t variant := by
  refine (reads_textAs_of_spelled h .variant).bind_pure ?_
  cases variant <;> rfl

theorem member_type (g : Option Variant × List (String × Value)) : member depth "type" g =
    (once "type" g.1 Variant.reader >>= fun variant => pure (variant, g.2)) := rfl

theorem member_other (h : key ≠ "type") (g : Option Variant × List (String × Value)) :
    member depth key g =
      (colon >>= fun _ => value depth >>= fun v => pure (g.1, (key, v) :: g.2)) :=
  if_neg h

theorem Holds.kind_spelled (h : request.Holds "type" u) :
    Text.StringSpelled request.variant.name u := by
  -- the cases can be told apart only if the name is a variable
  generalize hkey : "type" = key at h
  cases h with
  | kind string => exact string
  | text text =>
    subst hkey
    cases text

theorem exists_reads_value (hk : key ≠ "type") (hknown : key ∈ request.names → request.Holds key u)
    (hother : key ∉ request.names → Readable depth u) :
    ∃ v, Reads (value depth) u v ∧ ∀ s, request.text? key = some s → v = .text s := by
  by_cases hmem : key ∈ request.names
  · cases hknown hmem with
    | kind => exact absurd rfl hk
    | @text _ s _ text string =>
      refine ⟨_, reads_value_of_spelled string, fun s' hs => ?_⟩
      rw [← Option.some.inj (text.symm.trans hs)]
  · obtain ⟨v, hv⟩ := hother hmem
    refine ⟨v, reads_value hv, fun s hs => ?_⟩
    exact absurd (List.mem_cons_of_mem _ (mem_names_of_text? hs)) hmem

theorem Gathered.exists_takesMember {g : Option Variant × List (String × Value)}
    (hg : request.Gathered seen g) (hknown : key ∈ request.names → key ∉ seen ∧ request.Holds key u)
    (hother : key ∉ request.names → Readable depth u) :
    ∃ g', TakesMember (member depth key g) u g' ∧ request.Gathered (key :: seen) g' := by
  by_cases hk : key = "type"
  · subst hk
    obtain ⟨hnew, hholds⟩ := hknown List.mem_cons_self
    have hkind : g.1 = none := hg.kind.trans (if_neg hnew)
    refine ⟨(some request.variant, g.2), ?_, ?_, ?_, hg.texts⟩
    · rw [member_type]
      refine takesMember_once (Variant.reads_of_spelled hholds.kind_spelled) hkind ?_
      rfl
    · simp
    · simpa using hg.names
  · obtain ⟨v, hv, hs⟩ := exists_reads_value hk (fun hmem => (hknown hmem).2) hother
    refine ⟨(g.1, (key, v) :: g.2), ?_, ?_, ?_, List.forall_mem_cons.mpr ⟨hs, hg.texts⟩⟩
    · rw [member_other hk]
      exact takesMember_colon (hv.bind_pure rfl)
    · simp [hg.kind, Ne.symm hk]
    · simp [hg.names, hk]

theorem Gathered.ofMembers_eq {g : Option Variant × List (String × Value)}
    (hg : request.Gathered seen g) (once : ∀ name ∈ request.names, seen.count name ≤ 1)
    (present : ∀ name ∈ request.names, name ∈ seen) :
    ofMembers request.variant {} g.2.reverse = .ok request := by
  have hne : ∀ name ∈ request.variant.names, name ≠ "type" := by
    rintro name hn rfl
    cases request <;> simp [variant, Variant.names] at hn
  have hmem : ∀ name ∈ request.variant.names, name ∈ seen.filter (· ≠ "type") := by
    intro name hn
    simpa [hne name hn] using present name (List.mem_cons_of_mem _ hn)
  have hnil : ({} : Known) = request.noted [] := rfl
  rw [hnil, ofMembers_noted, ofKnown_noted]
  · simpa [hg.names] using hmem
  · intro name hn
    rw [List.map_reverse, List.count_reverse, hg.names, List.count_nil, Nat.add_zero]
    exact Nat.le_trans (List.filter_sublist.count_le name) (once name (List.mem_cons_of_mem _ hn))
  · simpa using hg.texts

theorem Spelled.reads_decoder (h : request.Spelled depth t) :
    Reads (decoder (depth + 1)) t request := by
  obtain ⟨ms, hobject, hcarries⟩ := h
  obtain ⟨⟨kind, read⟩, hsteps, hg⟩ := hcarries.exists_steps (P := request.Gathered)
    (fun seen g key u hg => hg.exists_takesMember) request.gathered_nil
  obtain ⟨u, rfl, htakes⟩ := hobject.exists_takes hsteps
  have hseen : ∀ name ∈ request.names, name ∈ (ms.map Prod.fst).reverse := by
    simpa using hcarries.present
  have hof : ofMembers request.variant {} read.reverse = .ok request :=
    hg.ofMembers_eq (by simpa using hcarries.once) hseen
  have hkind : kind = some request.variant :=
    hg.kind.trans (if_pos (hseen _ List.mem_cons_self))
  refine reads_container (htakes.bind_pure ?_)
  subst hkind
  have hlift : (Reader.lift (ofMembers request.variant {} read.reverse)) = pure request := by
    rw [hof]
    rfl
  exact hlift

end Request

/-! ## Records -/

namespace Record

variable {record : Record}

def names : List String := ["client_id", "input", "call", "output", "return_time"]

/-- The members that have to be there: all but the answer, if nothing was observed. -/
def needed (record : Record) : List String :=
  if record.output = Response.none then names.erase "output" else names

inductive Holds (depth : Nat) (record : Record) : String → Bytes → Prop where
  | client {t : Bytes} (integer : IntegerSpelled record.client.id t) :
    Holds depth record "client_id" t
  | input {t : Bytes} (spelled : record.input.Spelled depth t) : Holds depth record "input" t
  | call {t : Bytes} (integer : IntegerSpelled record.call.raw t) : Holds depth record "call" t
  | output {t : Bytes} (spelled : record.output.SpelledOrNull t) : Holds depth record "output" t
  | ret {t : Bytes} (integer : IntegerSpelled record.ret.raw t) :
    Holds depth record "return_time" t

def Spelled (depth : Nat) (record : Record) (t : Bytes) : Prop :=
  ∃ ms, ObjectSpelled ms t ∧ Carries names record.needed (Holds depth record) Skippable ms

def noted (record : Record) (seen : List String) : Known where
  client := if "client_id" ∈ seen then some record.client else none
  input := if "input" ∈ seen then some record.input else none
  call := if "call" ∈ seen then some record.call else none
  output := if "output" ∈ seen then some record.output else none
  ret := if "return_time" ∈ seen then some record.ret else none

theorem member_client (known : Known) : member depth "client_id" known =
    (once "client_id" known.client (Client.decoder depth) >>= fun client =>
      pure { known with client }) := rfl

theorem member_input (known : Known) : member depth "input" known =
    (once "input" known.input (Request.decoder depth) >>= fun input =>
      pure { known with input }) := rfl

theorem member_call (known : Known) : member depth "call" known =
    (once "call" known.call (Timestamp.decoder depth) >>= fun call =>
      pure { known with call }) := rfl

theorem member_output (known : Known) : member depth "output" known =
    (once "output" known.output (Response.orNull depth) >>= fun output =>
      pure { known with output }) := rfl

theorem member_ret (known : Known) : member depth "return_time" known =
    (once "return_time" known.ret (Timestamp.decoder depth) >>= fun ret =>
      pure { known with ret }) := rfl

theorem member_other (h : key ∉ names) (known : Known) :
    member depth key known = (ignored >>= fun _ => pure known) := by
  unfold member
  split
  case h_6 => rfl
  all_goals exact absurd (by decide) h

theorem noted_other (record : Record) (h : key ∉ names) (seen : List String) :
    noted record (key :: seen) = noted record seen := by
  simp only [names, List.mem_cons, List.not_mem_nil, or_false, not_or] at h
  obtain ⟨hclient, hinput, hcall, houtput, hret⟩ := h
  simp [noted, Ne.symm hclient, Ne.symm hinput, Ne.symm hcall, Ne.symm houtput, Ne.symm hret]

theorem takesMember (hknown : key ∈ names → key ∉ seen ∧ Holds depth record key u)
    (hother : key ∉ names → Skippable u) :
    TakesMember (member (depth + 1) key (noted record seen)) u (noted record (key :: seen)) := by
  by_cases hk : key ∈ names
  · obtain ⟨hnew, hholds⟩ := hknown hk
    cases hholds with
    | client integer =>
      rw [member_client]
      exact takesMember_once (integer.reads_int64.map Client.mk) (if_neg hnew) (by simp [noted])
    | input spelled =>
      rw [member_input]
      exact takesMember_once spelled.reads_decoder (if_neg hnew) (by simp [noted])
    | call integer =>
      rw [member_call]
      exact takesMember_once (integer.reads_int64.map Timestamp.mk) (if_neg hnew) (by simp [noted])
    | output spelled =>
      rw [member_output]
      exact takesMember_once spelled.reads_orNull (if_neg hnew) (by simp [noted])
    | ret integer =>
      rw [member_ret]
      exact takesMember_once (integer.reads_int64.map Timestamp.mk) (if_neg hnew) (by simp [noted])
  · rw [member_other hk, noted_other record hk]
    exact (takesMember_ignored (hother hk)).bind_pure rfl

theorem ofObject_noted (h : ∀ name ∈ record.needed, name ∈ seen) :
    (do
      let client ← required "client_id" (noted record seen).client
      let input ← required "input" (noted record seen).input
      let call ← required "call" (noted record seen).call
      let ret ← required "return_time" (noted record seen).ret
      pure { client, input, call, output := (noted record seen).output.getD Response.none, ret }) =
    (pure record : Reader Record) := by
  have hmem : ∀ name ∈ names.erase "output", name ∈ seen := by
    intro name hn
    refine h name ?_
    rw [needed]
    split
    · exact hn
    · exact List.mem_of_mem_erase hn
  have houtput : (noted record seen).output.getD Response.none = record.output := by
    by_cases hs : "output" ∈ seen
    · simp [noted, hs]
    · by_cases ho : record.output = Response.none
      · simp [noted, hs, ho]
      · exact absurd (h "output" (by rw [needed, if_neg ho]; decide)) hs
  rw [houtput]
  simp only [noted, if_pos (hmem "client_id" (by decide)), if_pos (hmem "input" (by decide)),
    if_pos (hmem "call" (by decide)), if_pos (hmem "return_time" (by decide))]
  rfl

theorem Spelled.reads_decoder (h : Spelled depth record t) :
    Reads (decoder (depth + 2)) t record := by
  obtain ⟨ms, hobject, hcarries⟩ := h
  obtain ⟨_, hsteps, rfl⟩ : ∃ known, Steps (member (depth + 1)) ms {} known ∧
      known = noted record (ms.map Prod.fst).reverse := by
    refine hcarries.exists_steps (P := fun seen known => known = noted record seen) ?_ rfl
    rintro seen _ key u rfl hknown hother
    exact ⟨_, takesMember hknown hother, rfl⟩
  obtain ⟨u, rfl, htakes⟩ := hobject.exists_takes hsteps
  exact reads_container (htakes.bind_pure (ofObject_noted (by simpa using hcarries.present)))

end Record

end Linearizability
