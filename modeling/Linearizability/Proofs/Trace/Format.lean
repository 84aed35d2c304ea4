import Linearizability.Proofs.Json.Decoder
import Linearizability.Trace.Format

/-! # Records are read as they are printed

Requests, answers and records are printed as objects; their decoders find them again.
-/

namespace Linearizability

open Json Json.Reader Json.Decoder

variable {layout : Layout} {level depth : Nat} {ws : Bytes}

theorem Timestamp.reads_decoder (t : Timestamp) :
    Reads (Timestamp.decoder depth) (t.toJson.pieces layout level).flatten t := by
  rw [Timestamp.toJson, flatten_pieces_integer]
  exact (reads_int64 t.raw depth).map Timestamp.mk

theorem Client.reads_decoder (client : Client) :
    Reads (Client.decoder depth) (client.toJson.pieces layout level).flatten client := by
  rw [Client.toJson, flatten_pieces_integer]
  exact (reads_int64 client.id depth).map Client.mk

namespace Request

theorem Variant.reads_reader (variant : Variant) :
    Reads Variant.reader (34 :: (escaped (Bytes.ofString variant.name) ++ [34])) variant := by
  refine (reads_textAs .variant variant.name 0).bind_pure ?_
  cases variant <;> rfl

theorem takes_member_type (variant : Variant) (read : List (String × Value)) :
    Takes (member depth "type" (none, read))
      (58 :: (layout.space ++ ((Value.text variant.name).pieces layout level).flatten))
      (some variant, read) := by
  rw [flatten_pieces_text]
  exact (takes_once variant.reads_reader layout.blank_space "type").map fun v => (v, read)

theorem takes_member_text {key : String} (hk : key ≠ "type") (s : String) (variant : Option Variant)
    (read : List (String × Value)) :
    Takes (member depth key (variant, read))
      (58 :: (layout.space ++ ((Value.text s).pieces layout level).flatten))
      (variant, (key, .text s) :: read) := by
  rw [flatten_pieces_text, member, if_neg hk]
  exact takes_colon_bind ((reads_value_text s depth).map fun v => (variant, (key, v) :: read))
    layout.blank_space

theorem gathers_members (request : Request) : ∃ members variant read,
    request.toJson = .object members ∧
      Gathers (member depth) layout level members (none, []) (some variant, read) ∧
      ofMembers variant {} read.reverse = .ok request := by
  cases request with
  | put key value =>
    exact ⟨_, .put, [("value", .text value), ("key", .text key)], rfl,
      .cons (takes_member_type .put []) (.cons (takes_member_text (by decide) key _ _)
        (.cons (takes_member_text (by decide) value _ _) (.nil _))), rfl⟩
  | get key =>
    exact ⟨_, .get, _, rfl, .cons (takes_member_type .get [])
      (.cons (takes_member_text (by decide) key _ _) (.nil _)), rfl⟩
  | delete key =>
    exact ⟨_, .delete, _, rfl, .cons (takes_member_type .delete [])
      (.cons (takes_member_text (by decide) key _ _) (.nil _)), rfl⟩

theorem reads_decoder (request : Request) :
    Reads (decoder (depth + 1)) (request.toJson.pieces layout level).flatten request := by
  obtain ⟨members, variant, read, hj, hg, ho⟩ := request.gathers_members
  obtain ⟨t, ht, hm⟩ := takes_object hg
  rw [hj, ht]
  refine reads_container fun rest hr => ?_
  have hv : (required "type" (some variant)).run rest = .ok (variant, rest) := rfl
  rw [ofObject, run_bind (hm rest hr), run_bind hv, ho]
  rfl

end Request

namespace Response

theorem reads_part (s : String) :
    Reads (nullable text depth) ((Value.text s).pieces layout level).flatten (some s) := by
  rw [flatten_pieces_text]
  exact reads_nullable (reads_textAs .text s depth) rfl (by decide)

theorem takes_member_status (s : String) :
    Takes (member depth "status" {})
      (58 :: (layout.space ++ ((Value.text s).pieces layout level).flatten))
      { status := some (some s) } :=
  takes_member (fun status => { status : Known }) (reads_part s) layout.blank_space "status"

theorem takes_member_value (status : Option (Option String)) (s : String) :
    Takes (member depth "value" { status })
      (58 :: (layout.space ++ ((Value.text s).pieces layout level).flatten))
      { status, value := some (some s) } :=
  takes_member (Known.mk status) (reads_part s) layout.blank_space "value"

theorem gathers_members (response : Response) : ∃ members known,
    response.toJson = .object members ∧ Gathers (member depth) layout level members {} known ∧
      known.status.join = response.status ∧ known.value.join = response.value := by
  obtain ⟨status, value⟩ := response
  cases status with
  | none =>
    cases value with
    | none => exact ⟨_, _, rfl, .nil _, rfl, rfl⟩
    | some value => exact ⟨_, _, rfl, .cons (takes_member_value _ value) (.nil _), rfl, rfl⟩
  | some status =>
    cases value with
    | none => exact ⟨_, _, rfl, .cons (takes_member_status status) (.nil _), rfl, rfl⟩
    | some value =>
      exact ⟨_, _, rfl, .cons (takes_member_status status)
        (.cons (takes_member_value _ value) (.nil _)), rfl, rfl⟩

theorem reads_orNull (response : Response) :
    Reads (orNull (depth + 1)) (response.toJson.pieces layout level).flatten response := by
  obtain ⟨members, known, hj, hg, hs, hv⟩ := response.gathers_members
  obtain ⟨t, ht, hm⟩ := takes_object hg
  have hd : Reads (decoder (depth + 1)) (123 :: t) response := by
    refine reads_container fun rest hr => ?_
    rw [ofObject, run_bind (hm rest hr), hs, hv]
    rfl
  rw [hj, ht]
  exact (reads_nullable hd rfl (by decide)).map fun response => response.getD Response.none

end Response

namespace Record

def known (record : Record) : Known :=
  ⟨record.client, record.input, record.call, record.output, record.ret⟩

theorem gathers_members (record : Record) : ∃ members, record.toJson = .object members ∧
    Gathers (member (depth + 1)) layout level members {} record.known := by
  refine ⟨_, rfl, ?_⟩
  have hb := layout.blank_space
  refine .cons (takes_member (fun client => { client : Known }) record.client.reads_decoder hb
    "client_id") ?_
  refine .cons (takes_member (fun input => { client := record.client, input : Known })
    record.input.reads_decoder hb "input") ?_
  refine .cons (takes_member
    (fun call => { client := record.client, input := record.input, call : Known })
    record.call.reads_decoder hb "call") ?_
  refine .cons (takes_member
    (fun output =>
      { client := record.client, input := record.input, call := record.call, output : Known })
    record.output.reads_orNull hb "output") ?_
  exact .cons (takes_member (Known.mk record.client record.input record.call record.output)
    record.ret.reads_decoder hb "return_time") (.nil _)

theorem reads_decoder (record : Record) :
    Reads (decoder (depth + 3)) (record.toJson.pieces layout level).flatten record := by
  obtain ⟨members, hj, hg⟩ := record.gathers_members
  obtain ⟨t, ht, hm⟩ := takes_object hg
  rw [hj, ht]
  refine reads_container fun rest hr => ?_
  rw [ofObject, run_bind (hm rest hr)]
  rfl

end Record

end Linearizability
