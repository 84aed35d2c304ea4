import Linearizability.Proofs.Json.Truncation
import Linearizability.Proofs.Trace.RoundTrip

/-! # Trace files cut short

A file that could not grow to the whole of a history holds only the front of its text. Wherever
such a text is cut, it is found to end too early, and is not taken for a shorter history.
-/

namespace Linearizability

open Json Json.Reader Json.Decoder

section Decoders

variable {layout : Layout} {level depth : Nat} {ws : Bytes}

theorem Timestamp.wants_decoder (t : Timestamp) (hws : Blank ws) :
    Wants (Timestamp.decoder depth) (ws ++ (t.toJson.pieces layout level).flatten) := by
  rw [Timestamp.toJson, flatten_pieces_integer]
  exact (wants_int64 t.raw depth hws).bind_pure Timestamp.mk

theorem Client.wants_decoder (client : Client) (hws : Blank ws) :
    Wants (Client.decoder depth) (ws ++ (client.toJson.pieces layout level).flatten) := by
  rw [Client.toJson, flatten_pieces_integer]
  exact (wants_int64 client.id depth hws).bind_pure Client.mk

namespace Request

theorem asks_members {request : Request} {members : List (String × Value)}
    (hj : request.toJson = .object members) : Asks (member depth) layout level members := by
  have htext : ∀ m ∈ members, ∃ s, m.2 = .text s := by
    cases request <;> cases hj <;> simp
  intro key v hm g g' ht
  obtain ⟨s, rfl⟩ := htext (key, v) hm
  rw [flatten_pieces_text] at ht ⊢
  have hws := layout.blank_space
  by_cases hk : key = "type"
  · simp only [member, if_pos hk] at ht ⊢
    exact wants_member ((needs_textAs .variant s 0 hws).bind _).wants ht
  · simp only [member, if_neg hk]
    exact wants_colon_bind ((needs_value_text s depth hws).bind _).wants

theorem needs_decoder (request : Request) (hws : Blank ws) :
    Needs (decoder (depth + 1)) (ws ++ (request.toJson.pieces layout level).flatten) := by
  obtain ⟨members, variant, read, hj, hg, -⟩ := request.gathers_members
  obtain ⟨t, ht, -⟩ := takes_object hg
  rw [hj, ht]
  exact needs_container ((needs_object hg (asks_members hj) ht).bind _) hws

end Request

namespace Response

theorem needs_part (s : String) (hws : Blank ws) :
    Needs (nullable text depth) (ws ++ ((Value.text s).pieces layout level).flatten) := by
  rw [flatten_pieces_text]
  exact needs_nullable (needs_textAs .text s depth blank_nil) hws rfl (by decide)

theorem asks_members {response : Response} {members : List (String × Value)}
    (hj : response.toJson = .object members) : Asks (member depth) layout level members := by
  have hmembers : ∀ key v, (key, v) ∈ members →
      (key = "status" ∨ key = "value") ∧ ∃ s, v = .text s := by
    intro key v hm
    cases hj
    rcases List.mem_append.mp hm with hm | hm
    · obtain ⟨s, -, heq⟩ := List.mem_map.mp hm
      cases heq
      exact ⟨.inl rfl, s, rfl⟩
    · obtain ⟨s, -, heq⟩ := List.mem_map.mp hm
      cases heq
      exact ⟨.inr rfl, s, rfl⟩
  intro key v hm g g' ht
  obtain ⟨rfl | rfl, s, rfl⟩ := hmembers key v hm
  · exact wants_member (needs_part s layout.blank_space).wants ht
  · exact wants_member (needs_part s layout.blank_space).wants ht

theorem needs_orNull (response : Response) (hws : Blank ws) :
    Needs (orNull (depth + 1)) (ws ++ (response.toJson.pieces layout level).flatten) := by
  obtain ⟨members, known, hj, hg, -⟩ := response.gathers_members
  obtain ⟨t, ht, -⟩ := takes_object hg
  rw [hj, ht]
  have hd : Needs (decoder (depth + 1)) (123 :: t) :=
    needs_container ((needs_object hg (asks_members hj) ht).bind _) blank_nil
  exact (needs_nullable hd hws rfl (by decide)).bind _

end Response

namespace Record

theorem asks_members (record : Record) {members : List (String × Value)}
    (hj : record.toJson = .object members) :
    Asks (member (depth + 1)) layout level members := by
  cases hj
  intro key v hm g g' ht
  have hws := layout.blank_space
  simp only [List.mem_cons, Prod.mk.injEq, List.not_mem_nil, or_false] at hm
  obtain ⟨rfl, rfl⟩ | ⟨rfl, rfl⟩ | ⟨rfl, rfl⟩ | ⟨rfl, rfl⟩ | ⟨rfl, rfl⟩ := hm
  · exact wants_member (record.client.wants_decoder hws) ht
  · exact wants_member (record.input.needs_decoder hws).wants ht
  · exact wants_member (record.call.wants_decoder hws) ht
  · exact wants_member (record.output.needs_orNull hws).wants ht
  · exact wants_member (record.ret.wants_decoder hws) ht

theorem needs_decoder (record : Record) :
    Needs (decoder (depth + 3)) (record.toJson.pieces layout level).flatten := by
  obtain ⟨members, hj, hg⟩ := record.gathers_members
  obtain ⟨t, ht, -⟩ := takes_object hg
  rw [hj, ht]
  exact needs_container ((needs_object hg (record.asks_members hj) ht).bind _) blank_nil

end Record

theorem History.needs_decoder (history : History) :
    Needs (decoder (depth + 4)) (history.toJson.pieces layout level).flatten := by
  obtain ⟨t, ht, -⟩ := history.takes_elements_pieces layout level depth
  rw [ht]
  have hlist : Needs (elements (Record.decoder (depth + 3))) t :=
    needs_list (fun record _ =>
      ⟨solid_object _, record.reads_decoder.takes, record.needs_decoder.wants⟩) ht
  exact needs_listOf hlist blank_nil

end Decoders

namespace Trace

variable {tree tree' : FileTree} {path : Path} {history : History} {fault : WriteFault}
  {text : Bytes}

/-- Why the file could not be made, or did not take all of the text. -/
def WriteFault.cause : WriteFault → FileFault
  | unwritten _ cause | unprinted _ cause => cause

theorem exists_cut_of_write (hw : write tree path history = (.error fault, tree'))
    (hf : fault.cause = .tooLarge) :
    ∃ text, tree'.entryAt path = .ok (.file text) ∧ Cut text (history.toJson.print .pretty) := by
  obtain ⟨location, tree₁, stage, hc, hw⟩ : ∃ location tree₁ stage,
      tree.create path = .ok (location, tree₁) ∧
        tree₁.write location (history.toJson.pieces .pretty 0) =
          (tree', some (stage, .tooLarge)) := by
    rw [write] at hw
    split at hw
    · rename_i hc
      cases hw
      cases hf
      exact absurd hc (FileTree.create_ne_tooLarge tree path)
    · rename_i location tree₁ hc
      refine ⟨location, tree₁, ?_⟩
      split at hw <;> rename_i he <;> cases hw <;> cases hf
      · exact ⟨.flushing, hc, he⟩
      · exact ⟨.writing, hc, he⟩
  obtain ⟨room, hroom, rfl⟩ := FileTree.write_eq_of_tooLarge hw
  refine ⟨_, FileTree.entryAt_put_of_create hc _, List.take_prefix room _, fun heq => ?_⟩
  have hlength := congrArg List.length heq
  rw [List.length_take, Value.print] at hlength
  omega

theorem parse_of_cut (path : Path) (h : Cut text (history.toJson.print .pretty)) :
    ∃ cause, parse path text = .error (.unparsed path cause) ∧ cause.category = .ending := by
  obtain ⟨cause, hr, hc⟩ : Ends (History.decoder greatestDepth) text := history.needs_decoder text h
  refine ⟨cause, ?_, hc⟩
  rw [parse, decode, hr]

/-- What has been written of a history is all of its text, or, where the file could not grow any
further, only the front of it. Wherever the text is cut, a file that holds what is left of it is
found to end too early, and nothing is loaded from it. -/
theorem load_of_cut :
    (∀ tree path history tree', write tree path history = (.ok (), tree') →
      tree'.entryAt path = .ok (.file (history.toJson.print .pretty))) ∧
    (∀ tree path history fault tree', write tree path history = (.error fault, tree') →
      fault.cause = .tooLarge →
      ∃ text, tree'.entryAt path = .ok (.file text) ∧ Cut text (history.toJson.print .pretty)) ∧
    ∀ tree path (history : History) text, Cut text (history.toJson.print .pretty) →
      FileTree.entryAt tree path = .ok (.file text) →
      ∃ cause, load tree path = .error (.unparsed path cause) ∧ cause.category = .ending := by
  refine ⟨fun _ _ _ _ => entryAt_of_write, fun _ _ _ _ _ => exists_cut_of_write, ?_⟩
  intro tree path history text hcut ho
  obtain ⟨cause, hp, hc⟩ := parse_of_cut path hcut
  refine ⟨cause, ?_, hc⟩
  simp only [load, ho, FileTree.contentOf]
  exact hp

end Trace

open OddTexts in
/-- A file with room for a hundred bytes only, and what is loaded from it then. -/
theorem Trace.load_of_cut_oddTexts :
    ∃ fault tree, write ⟨[], .root, some 100⟩ first records = (.error fault, tree) ∧
      fault.cause = .tooLarge ∧
      ∃ cause, load tree first = .error (.unparsed first cause) ∧ cause.category = .ending := by
  have hover : Buffer.overflow? 100 0 0 ((records.toJson.pieces .pretty 0).map List.length) =
      some .flushing := by
    decide +kernel
  let made : FileTree := ⟨[(⟨["first.json"]⟩, .file [])], .root, some 100⟩
  have hcreate : FileTree.create ⟨[], .root, some 100⟩ first = .ok (⟨["first.json"]⟩, made) := rfl
  have hmade : made.entry? ⟨["first.json"]⟩ = some (.file []) := rfl
  have hlimit : made.limit = some 100 := rfl
  have hw : ∃ tree, write ⟨[], .root, some 100⟩ first records =
      (.error (.unwritten first .tooLarge), tree) := by
    simp [write, hcreate, FileTree.write, hmade, hlimit, hover]
  obtain ⟨tree, hw⟩ := hw
  obtain ⟨-, hwrite, hload⟩ := load_of_cut
  obtain ⟨text, ho, hcut⟩ := hwrite _ _ _ _ _ hw rfl
  exact ⟨_, tree, hw, rfl, hload _ _ _ _ hcut ho⟩

end Linearizability
