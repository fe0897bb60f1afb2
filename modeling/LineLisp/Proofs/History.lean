import LineLisp.Proofs.ByteOrder
import Mathlib.Data.List.Dedup
import Mathlib.Data.List.Induction

/-!
# Histories of definitions

An environment that definitions were made in, one after the other, keeps the last value of each name
and nothing else of its history. It lists its bindings in the order of the bytes of their names.
Sorting its entries, in whatever order they are met, gives this list, and histories with the same
last values have the same one.
-/

namespace LineLisp

namespace Env

/-! ## The list of bindings -/

/-- The names of the bindings increase by their UTF-8 bytes. -/
theorem pairwise_bindings (env : Env) :
    env.bindings.Pairwise fun a b => a.1.toUTF8.data.toList < b.1.toUTF8.data.toList := by
  have hordered : env.bindings.Pairwise fun a b => compare a.1 b.1 = .lt :=
    Std.ExtTreeMap.ordered_keys_toList
  exact hordered.imp fun h => Text.toUTF8_lt_iff.2 (compareOfLessAndEq_eq_lt.1 h)

theorem nodup_names_bindings (env : Env) : (env.bindings.map Prod.fst).Nodup := by
  rw [bindings, Std.ExtTreeMap.map_fst_toList_eq_keys]
  exact Std.ExtTreeMap.nodup_keys

theorem mem_bindings_iff {env : Env} {b : String × Value} :
    b ∈ env.bindings ↔ env[b.1]? = some b.2 :=
  Std.ExtTreeMap.mem_toList_iff_getElem?_eq_some

/-- The entries may be enumerated in any order. Sorted by the bytes of their names, in whatever way,
they are the list of bindings. -/
theorem eq_bindings_of_sorted {env : Env} {entries sorted : List (String × Value)}
    (hnodup : entries.Nodup) (hentries : ∀ b, b ∈ entries ↔ env[b.1]? = some b.2)
    (hperm : sorted.Perm entries)
    (hsorted : sorted.Pairwise fun a b => a.1.toUTF8.data.toList ≤ b.1.toUTF8.data.toList) :
    sorted = env.bindings := by
  have hbindings : entries.Perm env.bindings := by
    rw [List.perm_ext_iff_of_nodup hnodup env.nodup_names_bindings.of_map]
    exact fun b => (hentries b).trans mem_bindings_iff.symm
  refine (hperm.trans hbindings).eq_of_pairwise ?_ hsorted
    (env.pairwise_bindings.imp List.le_of_lt)
  -- Entries with the same name have the same value, so the order of names is one of entries.
  intro a b ha hb hab hba
  have hname : a.1 = b.1 :=
    String.toByteArray_inj.1 (ByteArray.ext (Array.toList_inj.1 (List.le_antisymm hab hba)))
  have hvalue := (hentries a).1 (hperm.mem_iff.1 ha)
  rw [hname, mem_bindings_iff.1 hb] at hvalue
  exact Prod.ext hname (Option.some.inj hvalue).symm

/-- Environments list the same bindings if every name has the same value in them. -/
theorem bindings_eq_iff {env env' : Env} :
    env.bindings = env'.bindings ↔ ∀ name : String, env[name]? = env'[name]? := by
  rw [bindings, bindings, Std.ExtTreeMap.toList_inj]
  constructor
  · rintro rfl name
    rfl
  · exact Std.ExtTreeMap.ext_getElem?

theorem lookup_eq_elim (env : Env) (name : String) :
    env.lookup name = env[name]?.elim (.error (.undefinedSymbol name)) .ok := by
  unfold lookup
  cases env[name]? <;> rfl

/-! ## Definitions one after the other -/

/-- The environment after definitions, the first of which is made first. -/
def ofHistory (history : List (String × Value)) : Env :=
  history.foldl (fun env b => env.insert b.1 b.2) ∅

/-- The value of the last definition of a name. -/
def lastValue? (history : List (String × Value)) (name : String) : Option Value :=
  (history.filter (·.1 = name)).getLast?.map (·.2)

theorem ofHistory_concat (history : List (String × Value)) (b : String × Value) :
    ofHistory (history ++ [b]) = (ofHistory history).insert b.1 b.2 :=
  List.foldl_concat ..

theorem lastValue?_concat (history : List (String × Value)) (b : String × Value) (name : String) :
    lastValue? (history ++ [b]) name =
      if b.1 = name then some b.2 else lastValue? history name := by
  unfold lastValue?
  rw [List.filter_append]
  split
  · next h => simp [h]
  · next h => simp [h]

theorem isSome_lastValue?_iff {history : List (String × Value)} {name : String} :
    (lastValue? history name).isSome ↔ name ∈ history.map Prod.fst := by
  simp [lastValue?]

/-- The value of a name is that of its last definition. -/
theorem getElem?_ofHistory (history : List (String × Value)) (name : String) :
    (ofHistory history)[name]? = lastValue? history name := by
  induction history using List.reverseRecOn with
  | nil => rfl
  | append_singleton history b ih =>
    rw [ofHistory_concat, Std.ExtTreeMap.getElem?_insert, ih, lastValue?_concat]
    simp only [Std.compare_eq_iff_eq]

/-- The bound names are those that were defined, each once. -/
theorem perm_keys_ofHistory (history : List (String × Value)) :
    (ofHistory history).keys.Perm (history.map Prod.fst).dedup := by
  refine (List.perm_ext_iff_of_nodup Std.ExtTreeMap.nodup_keys (List.nodup_dedup _)).2 ?_
  intro name
  rw [Std.ExtTreeMap.mem_keys, Std.ExtTreeMap.mem_iff_isSome_getElem?, getElem?_ofHistory,
    isSome_lastValue?_iff, List.mem_dedup]

/-- After any history each name has the value of its last definition, in whatever way one asks for
it, and there are as many bindings as names that were defined. They are listed by increasing bytes
of their names, which is the order of code points, each name once and with its value. So histories
have the same list if and only if they have the same last values. -/
theorem ofHistory_keeps_last_values (history : List (String × Value)) :
    (∀ name : String, (ofHistory history)[name]? = lastValue? history name ∧
      (ofHistory history).lookup name =
        (ofHistory history)[name]?.elim (.error (.undefinedSymbol name)) .ok ∧
      (ofHistory history).contains name = (ofHistory history)[name]?.isSome) ∧
    (ofHistory history).size = (history.map Prod.fst).dedup.length ∧
    ((ofHistory history).isEmpty ↔ (ofHistory history).size = 0) ∧
    (∀ name v, (name, v) ∈ (ofHistory history).bindings ↔ (ofHistory history)[name]? = some v) ∧
    ((ofHistory history).bindings.map Prod.fst).Nodup ∧
    ((ofHistory history).bindings.Pairwise fun a b =>
      a.1.toUTF8.data.toList < b.1.toUTF8.data.toList) ∧
    (∀ s t : String, s.toUTF8.data.toList < t.toUTF8.data.toList ↔
      s.toList.map Char.toNat < t.toList.map Char.toNat) ∧
    ∀ history' : List (String × Value),
      (ofHistory history).bindings = (ofHistory history').bindings ↔
        ∀ name, lastValue? history name = lastValue? history' name := by
  refine ⟨fun name => ⟨getElem?_ofHistory history name, lookup_eq_elim _ name,
      Std.ExtTreeMap.contains_eq_isSome_getElem?⟩, ?_, ?_,
    fun _ _ => mem_bindings_iff, nodup_names_bindings _,
    pairwise_bindings _, fun s t => ?_, fun history' => ?_⟩
  · rw [← Std.ExtTreeMap.length_keys, (perm_keys_ofHistory history).length_eq]
  · rw [Std.ExtTreeMap.isEmpty_eq_size_beq_zero, beq_iff_eq]
  · rw [Text.toUTF8_lt_iff, Text.lt_iff_codePoints]
  · simp only [bindings_eq_iff, getElem?_ofHistory]

-- `z` comes before `é`, whose first byte is `0xC3`
example : (ofHistory [("é", .int .one), ("z", .bool true), ("é", .bool false)]).bindings =
    [("z", .bool true), ("é", .bool false)] := by decide +kernel

end Env

end LineLisp
