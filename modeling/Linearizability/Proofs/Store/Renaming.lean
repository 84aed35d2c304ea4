import Linearizability.Proofs.Check
import Linearizability.Proofs.Search.Similar
import Linearizability.Proofs.Store.Locality
import Mathlib.Data.Set.Function

/-! # Renamed histories

A check only compares times by their order, and keys and values by equality. So it concludes the
same of a history in which times move but keep their order, and keys and values have other names,
as long as different ones stay different.
-/

namespace Linearizability

def Request.rename (key value : String → String) : Request → Request
  | .put k v => .put (key k) (value v)
  | .get k => .get (key k)
  | .delete k => .delete (key k)

def Response.rename (value : String → String) (response : Response) : Response :=
  { response with value := response.value.map value }

def History.times (history : History) : List Timestamp :=
  history.flatMap fun record => [record.call, record.ret]

/-- The values that an operation writes or reads. -/
def Operation.values (record : Record) : List String :=
  match record.input with
  | .put _ value => [value]
  | .get _ => record.output.value.toList
  | .delete _ => []

def History.values (history : History) : List String := history.flatMap Operation.values

/-- New times, keys and values for those that occur in a history. -/
structure Renaming (history : History) where
  time : Timestamp → Timestamp
  key : String → String
  value : String → String
  increasing : ∀ s ∈ history.times, ∀ t ∈ history.times, s < t → time s < time t
  key_injOn : Set.InjOn key {k | k ∈ Store.keys history}
  value_injOn : Set.InjOn value {v | v ∈ history.values}

namespace Renaming

variable {history history' : History} (σ : Renaming history) {a b : Record} {s s' : Store}

/-- A record with its new names. The client does not matter, nor what a put or a delete observed. -/
structure Renames (a b : Record) : Prop where
  call : b.call = σ.time a.call
  ret : b.ret = σ.time a.ret
  input : b.input = a.input.rename σ.key σ.value
  output : ∀ key, a.input = .get key → b.output = a.output.rename σ.value

/-- Stores with the same bindings, up to the names. -/
structure Partners (s s' : Store) : Prop where
  occur : ∀ k v, s.get? k = some v → k ∈ Store.keys history ∧ v ∈ history.values
  get : ∀ k ∈ Store.keys history, s'.get? (σ.key k) = (s.get? k).map σ.value
  exists_key : ∀ k' v', s'.get? k' = some v' → ∃ k ∈ Store.keys history, σ.key k = k'

variable {σ}

theorem partners_empty : σ.Partners .empty .empty where
  occur k v h := by cases h
  get k _ := rfl
  exists_key k' v' h := by cases h

theorem biUnique_partners : Relator.BiUnique σ.Partners := by
  constructor
  · intro s t u hs ht
    refine Store.ext_get? fun k => ?_
    by_cases hk : k ∈ Store.keys history
    · have he : (s.get? k).map σ.value = (t.get? k).map σ.value :=
        (hs.get k hk).symm.trans (ht.get k hk)
      cases hsk : s.get? k with
      | none => simpa [hsk, eq_comm] using he
      | some v =>
        obtain ⟨w, htk, hw⟩ : ∃ w, t.get? k = some w ∧ σ.value w = σ.value v := by
          simpa [hsk, eq_comm] using he
        rw [htk, σ.value_injOn (ht.occur k w htk).2 (hs.occur k v hsk).2 hw]
    · rw [Option.eq_none_iff_forall_ne_some.mpr fun v hv => hk (hs.occur k v hv).1,
        Option.eq_none_iff_forall_ne_some.mpr fun v hv => hk (ht.occur k v hv).1]
  · intro u s t hs ht
    refine Store.ext_get? fun k' => ?_
    by_cases hk : ∃ k ∈ Store.keys history, σ.key k = k'
    · obtain ⟨k, hk, rfl⟩ := hk
      rw [hs.get k hk, ht.get k hk]
    · rw [Option.eq_none_iff_forall_ne_some.mpr fun v hv => hk (hs.exists_key k' v hv),
        Option.eq_none_iff_forall_ne_some.mpr fun v hv => hk (ht.exists_key k' v hv)]

theorem mem_values {v : String} (ha : a ∈ history) (hv : v ∈ a.values) : v ∈ history.values :=
  List.mem_flatMap.mpr ⟨a, ha, hv⟩

theorem Partners.update {t t' : Store} {key : String} {value : Option String}
    (h : σ.Partners s s') (hk : key ∈ Store.keys history) (hv : ∀ v ∈ value, v ∈ history.values)
    (ht : ∀ k, t.get? k = if k = key then value else s.get? k)
    (ht' : ∀ k, t'.get? k = if k = σ.key key then value.map σ.value else s'.get? k) :
    σ.Partners t t' where
  occur k v hkv := by
    rw [ht] at hkv
    split at hkv
    · rename_i he
      exact ⟨he ▸ hk, hv v hkv⟩
    · exact h.occur k v hkv
  get k hkey := by
    rw [ht, ht']
    by_cases he : k = key
    · rw [if_pos he, if_pos (congrArg σ.key he)]
    · rw [if_neg he, if_neg fun hσ => he (σ.key_injOn hkey hk hσ), h.get k hkey]
  exists_key k' v' hkv := by
    rw [ht'] at hkv
    split at hkv
    · rename_i he
      exact ⟨key, hk, he.symm⟩
    · exact h.exists_key k' v' hkv

/-- A read is legal under the new names exactly if it was legal. -/
theorem Partners.legal_iff {key : String} {response : Response} (h : σ.Partners s s')
    (hk : key ∈ Store.keys history) (hv : ∀ v ∈ response.value, v ∈ history.values) :
    ((response.rename σ.value).isOk ∧
        (response.rename σ.value).value = s'.get? (σ.key key)) ↔
      (response.isOk ∧ response.value = s.get? key) := by
  rw [h.get key hk]
  refine and_congr Iff.rfl ⟨fun he => ?_, congrArg (Option.map σ.value)⟩
  change response.value.map σ.value = (s.get? key).map σ.value at he
  cases hr : response.value with
  | none => simpa [hr, eq_comm] using he
  | some v =>
    obtain ⟨w, hs, hw⟩ : ∃ w, s.get? key = some w ∧ σ.value w = σ.value v := by
      simpa [hr, eq_comm] using he
    rw [hs, σ.value_injOn (h.occur key w hs).2 (hv v hr) hw]

theorem Partners.next? (h : σ.Partners s s') (ha : a ∈ history) (hab : σ.Renames a b) :
    Option.Rel σ.Partners (Store.model.next? s a.exchange) (Store.model.next? s' b.exchange) := by
  have hk : a.input.key ∈ Store.keys history := Store.mem_keys.mpr ⟨a, ha, rfl⟩
  rw [Operation.exchange, Operation.exchange, hab.input]
  cases hi : a.input with
  | put key value =>
    have hv : value ∈ history.values := mem_values ha (by simp [Operation.values, hi])
    rw [hi] at hk
    refine .some (h.update hk ?_ (Store.get?_insert s key value)
      (Store.get?_insert s' (σ.key key) (σ.value value)))
    simpa using hv
  | get key =>
    have hv : ∀ v ∈ a.output.value, v ∈ history.values := by
      intro v hm
      exact mem_values ha (by simpa [Operation.values, hi] using hm)
    rw [hi, Request.key] at hk
    have hl := h.legal_iff hk hv
    rw [← hab.output key hi] at hl
    have hs : ∀ (store : Store) (key : String) (response : Response),
        Store.model.next? store (.get key, response) =
          if response.isOk ∧ response.value = store.get? key then some store else none := by
      intro store key response
      simp [Model.next?_eq_ite, Store.model, Store.step]
    rw [Request.rename, hs, hs]
    by_cases hok : a.output.isOk ∧ a.output.value = s.get? key
    · rw [if_pos hok, if_pos (hl.mpr hok)]
      exact .some h
    · rw [if_neg hok, if_neg fun hb => hok (hl.mp hb)]
      exact .none
  | delete key =>
    rw [hi] at hk
    exact .some (h.update hk (by simp) (Store.get?_erase s key)
      (Store.get?_erase s' (σ.key key)))

section Partition

theorem eraseDups_map_of_injOn {f : String → String} {l : List String}
    (h : Set.InjOn f {k | k ∈ l}) : (l.map f).eraseDups = l.eraseDups.map f := by
  induction hl : l.length using Nat.strongRecOn generalizing l with
  | _ m ih =>
    cases l with
    | nil => rfl
    | cons k l =>
      have hf : (l.map f).filter (fun b => !b == f k) = (l.filter fun b => !b == k).map f := by
        rw [List.filter_map]
        congr 1
        refine List.filter_congr fun b hb => ?_
        have hi : f b = f k ↔ b = k :=
          h.eq_iff (List.mem_cons_of_mem k hb) List.mem_cons_self
        simp [hi]
      rw [List.map_cons, List.eraseDups_cons, List.eraseDups_cons, List.map_cons, hf]
      refine congrArg _ (ih _ ?_ ?_ rfl)
      · rw [← hl]
        exact Nat.lt_succ_of_le (List.length_filter_le _ _)
      · exact h.mono fun b hb => List.mem_cons_of_mem k (List.mem_of_mem_filter hb)

theorem key_rename (hab : σ.Renames a b) : b.input.key = σ.key a.input.key := by
  rw [hab.input]
  cases a.input <;> rfl

theorem map_key_eq (h : List.Forall₂ σ.Renames history history') :
    history'.map (·.input.key) = (history.map (·.input.key)).map σ.key := by
  rw [List.map_map, ← List.forall₂_eq_eq_eq, List.forall₂_map_left_iff, List.forall₂_map_right_iff]
  exact h.flip.imp fun _ _ hab => key_rename hab

theorem positionsOf_eq (k : String) (history : History) :
    Store.positionsOf k history = (history.map (·.input.key)).zipIdx.filterMap
      fun (k', i) => if k' = k then some i else none := by
  rw [Store.positionsOf, List.zipIdx_map, List.filterMap_map]
  rfl

theorem partition_eq (h : List.Forall₂ σ.Renames history history') :
    Store.partition history' = Store.partition history := by
  have hinj : Set.InjOn σ.key {k | k ∈ history.map (·.input.key)} :=
    σ.key_injOn.mono fun k hk => List.mem_eraseDups.mpr hk
  rw [Store.partition, Store.keys, map_key_eq h, eraseDups_map_of_injOn hinj, List.map_map]
  refine List.map_congr_left fun k hk => ?_
  rw [Function.comp_apply, positionsOf_eq, positionsOf_eq, map_key_eq h, List.zipIdx_map,
    List.filterMap_map]
  refine List.filterMap_congr fun entry hm => ?_
  have hk' : σ.key entry.1 = σ.key k ↔ entry.1 = k :=
    hinj.eq_iff (List.fst_mem_of_mem_zipIdx hm) (List.mem_eraseDups.mp hk)
  simp [hk']

end Partition

section Check

variable {m n : Nat} {v v' : Vector Record m}

theorem similar_problemAt (hm : ∀ i, v.get i ∈ history) (hv : ∀ i, σ.Renames (v.get i) (v'.get i))
    (positions : Vector (Fin m) n) :
    (problemAt Store.model v positions).Similar σ.Partners
      (problemAt Store.model v' positions) := by
  have hget : ∀ (v : Vector Record m) i, (positions.map v.get).get i = v.get (positions.get i) :=
    fun v i => Vector.getElem_map v.get i.isLt
  have htimes : ∀ event ∈ Timeline.eventsOf (positions.map v.get), event.time ∈ history.times := by
    intro event he
    refine List.mem_flatMap.mpr ⟨v.get (positions.get event.op), hm _, ?_⟩
    rw [Timeline.mem_eventsOf, hget] at he
    rcases he with he | he
    · rw [he]
      exact List.mem_cons_self
    · rw [he]
      exact List.mem_cons_of_mem _ List.mem_cons_self
  have hr : Timeline.Retimed σ.time (positions.map v.get) (positions.map v'.get) := by
    constructor
    case call =>
      intro i
      rw [hget, hget]
      exact (hv _).call
    case ret =>
      intro i
      rw [hget, hget]
      exact (hv _).ret
    case increasing =>
      exact fun a ha b hb => σ.increasing _ (htimes a ha) _ (htimes b hb)
  constructor
  case events => exact hr.same
  case returnOf => exact hr.returnOf_eq
  case partners => exact biUnique_partners
  case init => exact partners_empty
  case next =>
    intro i s s' hs
    change Option.Rel σ.Partners
      (Store.model.next? s ((positions.map v.get).get i).exchange)
      (Store.model.next? s' ((positions.map v'.get).get i).exchange)
    rw [hget, hget]
    exact hs.next? (hm _) (hv _)

theorem findGroup_eq_of_renames (hm : ∀ i, v.get i ∈ history)
    (hv : ∀ i, σ.Renames (v.get i) (v'.get i)) (group : List Nat) (stop : Nat → Bool) :
    findGroup Store.model v' group stop = findGroup Store.model v group stop := by
  rw [findGroup, findGroup, (similar_problemAt hm hv _).search_eq stop]

theorem findGroups_eq_of_renames {m m' : Nat} {v : Vector Record m} {w : Vector Record m'}
    (hl : m = m') (hm : ∀ i, v.get i ∈ history)
    (hv : ∀ i, σ.Renames (v.get i) (w.get (i.cast hl))) (clock : Clock)
    (stopOnFailure stopped : Bool) (index : Nat) (groups : List (List Nat)) :
    findGroups Store.model w clock stopOnFailure stopped index groups =
      findGroups Store.model v clock stopOnFailure stopped index groups := by
  subst hl
  induction groups generalizing stopped index with
  | nil => rfl
  | cons group groups ih =>
    rw [findGroups, findGroups, findGroup_eq_of_renames hm hv]
    exact congrArg _ (ih _ _)

end Check

end Renaming

/-- A check concludes the same of a history under other names, group by group and position by
position, whatever its looks at the clock find. -/
theorem check_eq_of_renames {history history' : History} (σ : Renaming history)
    (h : List.Forall₂ σ.Renames history history') (clock : Clock) (stopOnFailure : Bool) :
    check Store.model history' clock stopOnFailure =
      check Store.model history clock stopOnFailure := by
  have hl : history.toArray.size = history'.toArray.size := h.length_eq
  have hf := Renaming.findGroups_eq_of_renames (v := history.toArray.toVector)
    (w := history'.toArray.toVector) hl (fun i => List.get_mem history i)
    (fun i => h.get i.isLt (Nat.lt_of_lt_of_eq i.isLt hl)) clock stopOnFailure false 0
  have hp : Store.model.partition history' = Store.model.partition history :=
    Renaming.partition_eq h
  rw [check, check, hp, hf]

namespace Renaming.Swapped

/-- Two keys, one of which is written and read. -/
def before : History :=
  [⟨⟨1⟩, .put "k" "v", ⟨1⟩, .ok, ⟨2⟩⟩, ⟨⟨2⟩, .get "k", ⟨2⟩, .found "v", ⟨3⟩⟩,
    ⟨⟨2⟩, .delete "l", ⟨3⟩, .ok, ⟨4⟩⟩]

/-- The keys have swapped their names, and all is done by one client around the time zero. -/
def after : History :=
  [⟨⟨7⟩, .put "l" "", ⟨-9⟩, .notFound, ⟨0⟩⟩, ⟨⟨7⟩, .get "l", ⟨0⟩, .found "", ⟨1⟩⟩,
    ⟨⟨7⟩, .delete "k", ⟨1⟩, .withStatus "late", ⟨.maxValue⟩⟩]

def time (t : Timestamp) : Timestamp :=
  if t = ⟨1⟩ then ⟨-9⟩ else if t = ⟨2⟩ then ⟨0⟩ else if t = ⟨3⟩ then ⟨1⟩ else ⟨.maxValue⟩

def key (k : String) : String := if k = "k" then "l" else if k = "l" then "k" else k

def value (v : String) : String := if v = "v" then "" else v

theorem key_inj : ∀ k ∈ Store.keys before, ∀ l ∈ Store.keys before, key k = key l → k = l := by
  decide

theorem value_inj : ∀ v ∈ before.values, ∀ w ∈ before.values, value v = value w → v = w := by
  decide

def swap : Renaming before where
  time := time
  key := key
  value := value
  increasing := by decide
  key_injOn k hk l hl := key_inj k hk l hl
  value_injOn v hv w hw := value_inj v hv w hw

theorem renames : List.Forall₂ swap.Renames before after :=
  .cons ⟨rfl, rfl, rfl, nofun⟩
    (.cons ⟨rfl, rfl, rfl, fun _ _ => rfl⟩ (.cons ⟨rfl, rfl, rfl, nofun⟩ .nil))

end Renaming.Swapped

theorem check_eq_of_renames_swapped :
    List.Forall₂ Renaming.Swapped.swap.Renames Renaming.Swapped.before
        Renaming.Swapped.after ∧
      check Store.model Renaming.Swapped.after = check Store.model Renaming.Swapped.before :=
  ⟨Renaming.Swapped.renames,
    check_eq_of_renames Renaming.Swapped.swap Renaming.Swapped.renames .unlimited false⟩

end Linearizability
