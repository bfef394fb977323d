import BrokerConfig.Proofs.PrintedValues
import BrokerConfig.Proofs.RecordIds
import BrokerConfig.Record.Text

namespace BrokerConfig

open Json

namespace SortedMap

variable {ν : Type}

theorem eq_of_entries {m n : SortedMap ν} (h : m.entries = n.entries) : m = n := by
  cases m
  cases n
  cases h
  rfl

theorem place_last {k : String} {v : ν} {entries : List (String × ν)}
    (h : ∀ entry ∈ entries, entry.1 < k) : place k v entries = entries ++ [(k, v)] := by
  induction entries with
  | nil => rfl
  | cons first rest ih =>
    have hfirst : first.1 < k := h first List.mem_cons_self
    have hlt : ¬k < first.1 := String.lt_asymm hfirst
    have hne : k ≠ first.1 := fun e => String.lt_irrefl _ (e ▸ hfirst)
    rw [place, if_neg hlt, if_neg hne, ih fun entry hm => h entry (List.mem_cons_of_mem _ hm)]
    rfl

theorem ofList_entries (m : SortedMap ν) : ofList m.entries = m := by
  obtain ⟨entries, sorted⟩ := m
  suffices ∀ kept : SortedMap ν, (kept.entries ++ entries).Pairwise (fun a b => a.1 < b.1) →
      (entries.foldl (fun m entry => m.insert entry.1 entry.2) kept).entries =
        kept.entries ++ entries from
    eq_of_entries (this empty sorted)
  clear sorted
  induction entries with
  | nil => simp
  | cons first rest ih =>
    intro kept hsorted
    have hlast : (kept.insert first.1 first.2).entries = kept.entries ++ [first] :=
      place_last fun entry hm =>
        (List.pairwise_append.1 hsorted).2.2 entry hm first List.mem_cons_self
    have happend :
        (kept.insert first.1 first.2).entries ++ rest = kept.entries ++ first :: rest := by
      rw [hlast, List.append_assoc]
      rfl
    rw [List.foldl_cons, ih _ (happend ▸ hsorted), happend]

end SortedMap

namespace Record

theorem idOfTree?_print (id : RecordId) :
    idOfTree? (.scalar (.text (pointsOf id.print))) = some id := by
  rw [idOfTree?, Tree.asText?, textOfPoints?_pointsOf, Option.bind_some, RecordId.ofText?_print]

theorem readAs_attributes {attributes : Attributes}
    (h : ∀ entry ∈ attributes.entries, entry.2.Nests (maxDepth - 2))
    (hnumbers : ∀ entry ∈ attributes.entries, entry.2.Integral) :
    ReadAs attributesOfTree? (Value.ofMapping attributes).chars attributes := by
  have hnests : (Value.ofMapping attributes).Nests (maxDepth - 1) :=
    .object attributes.distinct h
  obtain ⟨tokens, tree, hspells, hbuilds, htree⟩ := hnests.readBack (.object hnumbers)
  refine ⟨tokens, tree, hspells, hbuilds, ?_⟩
  rw [attributesOfTree?, Mapping.ofTree?, htree, Option.bind_some, Value.asMapping?_ofMapping]

theorem mapM_map {α β γ : Type} {f : α → β} {read? : β → Option γ} {g : α → γ}
    (h : ∀ a, read? (f a) = some (g a)) (l : List α) :
    (l.map f).mapM read? = some (l.map g) := by
  induction l with
  | nil => rfl
  | cons a rest ih => simp [h, ih]

def parentMember (entry : String × RecordId) : List Nat × Tree :=
  (pointsOf entry.1, .scalar (.text (pointsOf entry.2.print)))

theorem pieces_of_parents (entries : List (String × RecordId)) :
    ∃ pieces, List.Forall₂ Token.Spells
        (Value.memberTexts (entries.map fun entry => (entry.1, .text entry.2.print))) pieces ∧
      List.Forall₂ Tree.BuildsMember pieces (entries.map parentMember) := by
  induction entries with
  | nil => exact ⟨[], .nil, .nil⟩
  | cons entry rest ih =>
    obtain ⟨pieces, hpieces, hmembers⟩ := ih
    have hspells : Token.Spells (Value.text entry.2.print).chars
        [.scalar (.text (pointsOf entry.2.print))] := by
      simpa [Value.chars] using Token.Spells.quote entry.2.print .nil
    exact ⟨_ :: pieces, .cons (Value.spells_member entry.1 hspells) hpieces,
      .cons ⟨_, rfl, .scalar _⟩ hmembers⟩

theorem readAs_parents (parents : Parents) :
    ReadAs parentsOfTree? (parentsValue parents).chars parents := by
  obtain ⟨pieces, hpieces, hmembers⟩ := pieces_of_parents parents.entries
  refine ⟨_, _, Value.spells_object hpieces, .object hmembers, ?_⟩
  have hkeys : (Tree.object (parents.entries.map parentMember)).asMembers? =
      some (parents.entries.map fun entry =>
        (entry.1, .scalar (.text (pointsOf entry.2.print)))) :=
    mapM_map (fun entry => by simp [parentMember, textOfPoints?_pointsOf]) parents.entries
  have hids : (parents.entries.map fun entry =>
        (entry.1, Tree.scalar (.text (pointsOf entry.2.print)))).mapM
      (fun member => (idOfTree? member.2).map fun id => (member.1, id)) = some parents.entries := by
    rw [mapM_map (fun entry => by rw [idOfTree?_print, Option.map_some]) parents.entries]
    exact congrArg some (List.map_id _)
  rw [parentsOfTree?, hkeys]
  show Option.bind (List.mapM _ _) _ = _
  rw [hids, Option.bind_some, SortedMap.ofList_entries]
  rfl

theorem readAs_print {r : Record} (h : ∀ entry ∈ r.attributes.entries, entry.2.Nests (maxDepth - 2))
    (hnumbers : ∀ entry ∈ r.attributes.entries, entry.2.Integral) :
    ReadAs ofTree? r.toValue.chars r := by
  have hid : ReadAs idOfTree? (Value.text r.id.print).chars r.id :=
    readAs_quote (idOfTree?_print r.id)
  have hcategory : ReadAs Tree.asText? (Value.text r.category).chars r.category :=
    readAs_quote (textOfPoints?_pointsOf r.category)
  obtain ⟨_, id, hid, hbid, hrid⟩ := hid
  obtain ⟨_, category, hcategory, hbcategory, hrcategory⟩ := hcategory
  obtain ⟨_, attributes, hattributes, hbattributes, hrattributes⟩ := readAs_attributes h hnumbers
  obtain ⟨_, parents, hparents, hbparents, hrparents⟩ := readAs_parents r.parents
  have hspells : Token.Spells r.toValue.chars _ :=
    Value.spells_object <| .cons (Value.spells_member Field.id hid) <|
      .cons (Value.spells_member Field.type hcategory) <|
      .cons (Value.spells_member Field.attributes hattributes) <|
      .cons (Value.spells_member Field.parents hparents) .nil
  have hbuilds : List.Forall₂ Tree.BuildsMember _
      [(pointsOf Field.id, id), (pointsOf Field.type, category),
        (pointsOf Field.attributes, attributes), (pointsOf Field.parents, parents)] :=
    .cons ⟨_, rfl, hbid⟩ <| .cons ⟨_, rfl, hbcategory⟩ <| .cons ⟨_, rfl, hbattributes⟩ <|
      .cons ⟨_, rfl, hbparents⟩ .nil
  refine ⟨_, _, hspells, .object hbuilds, ?_⟩
  simp [ofTree?, Tree.asMembers?, textOfPoints?_pointsOf, ofMembers?, Tree.field?, Tree.membersOf,
    Field.id, Field.type, Field.attributes, Field.parents, hrid, hrcategory, hrattributes,
    hrparents]

theorem nests_of_attributesOfTree? {tree : Tree} {attributes : Attributes}
    (h : attributesOfTree? tree = some attributes) :
    ∀ entry ∈ attributes.entries, entry.2.Nests (maxDepth - 2) := by
  obtain ⟨v, htree, hv⟩ := Option.bind_eq_some_iff.1 h
  have hnests := Value.nests_of_ofTree? htree
  cases v with
  | object members =>
    cases hv
    cases hnests with
    | object _ hmembers => exact fun entry he => hmembers entry (OrderedMap.mem_entries_ofList he)
  | _ => cases hv

theorem of_field? {α : Type} {key : String} {read? : Tree → Option α} {absent : Option α} {a : α}
    {members : List (String × Tree)} (h : Tree.field? key read? absent members = some a) :
    absent = some a ∨ ∃ tree, read? tree = some a := by
  unfold Tree.field? at h
  split at h
  · exact .inl h
  · exact .inr ⟨_, h⟩
  · cases h

theorem attributes_of_ofTree? {tree : Tree} {r : Record} (h : ofTree? tree = some r) :
    r.attributes = OrderedMap.empty ∨ ∃ tree, attributesOfTree? tree = some r.attributes := by
  unfold ofTree? at h
  split at h
  · unfold ofItems? at h
    split at h
    · simp only [Option.bind_eq_bind, Option.bind_eq_some_iff] at h
      obtain ⟨id, -, category, -, h⟩ := h
      split at h
      · cases h
        exact .inl rfl
      · obtain ⟨attributes, hattributes, h⟩ := Option.bind_eq_some_iff.1 h
        cases h
        exact .inr ⟨_, hattributes⟩
      · simp only [Option.bind_eq_some_iff] at h
        obtain ⟨attributes, hattributes, parents, -, h⟩ := h
        cases h
        exact .inr ⟨_, hattributes⟩
      · cases h
    · cases h
  · obtain ⟨members, -, h⟩ := Option.bind_eq_some_iff.1 h
    simp only [ofMembers?, Option.bind_eq_bind, Option.bind_eq_some_iff] at h
    obtain ⟨id, -, category, -, attributes, hattributes, parents, -, h⟩ := h
    cases h
    exact (of_field? hattributes).imp_left fun e => (Option.some.inj e).symm

theorem nests_of_ofText? {s : String} {r : Record} (h : ofText? s = some r) :
    ∀ entry ∈ r.attributes.entries, entry.2.Nests (maxDepth - 2) := by
  obtain ⟨tree, -, htree⟩ := Option.bind_eq_some_iff.1 h
  rcases attributes_of_ofTree? htree with hempty | ⟨_, hattributes⟩
  · rw [hempty]
    exact fun entry he => absurd he List.not_mem_nil
  · exact nests_of_attributesOfTree? hattributes

/-- Printing loses nothing, and the print of a record that was read is its canonical text. -/
theorem print_lossless :
    (∀ r : Record,
      (∀ entry ∈ r.attributes.entries, entry.2.Integral ∧ entry.2.Nests 125) →
        ofText? r.print = some r) ∧
    (∀ s r, ofText? s = some r → (∀ entry ∈ r.attributes.entries, entry.2.Integral) →
      ofText? r.print = some r ∧ ∀ again, ofText? r.print = some again → again.print = r.print) := by
  have hread : ∀ r : Record, (∀ entry ∈ r.attributes.entries, entry.2.Nests 125) →
      (∀ entry ∈ r.attributes.entries, entry.2.Integral) → ofText? r.print = some r :=
    fun r hnests hnumbers => (readAs_print hnests hnumbers).ofText?
  refine ⟨fun r h => hread r (fun entry he => (h entry he).2) fun entry he => (h entry he).1, ?_⟩
  intro s r hs hnumbers
  have hr := hread r (nests_of_ofText? hs) hnumbers
  refine ⟨hr, fun again hagain => ?_⟩
  rw [Option.some.inj (hagain.symm.trans hr)]

theorem print_lossless_nested :
    let limits : Value :=
      .object [("b", .number (.integer (-5))), ("a", .array [.null, .bool true])]
    let attributes : Attributes := OrderedMap.ofList [("name", .text "a \"b\""), ("limits", limits)]
    let r : Record :=
      ⟨⟨1⟩, Category.queue, attributes, SortedMap.ofList [(Category.virtualHost, ⟨2⟩)]⟩
    let s := "[\"\x7b00000000-0000-0000-0000-000000000001\x7d\", \"Queue\"," ++
      " \x7b\"name\": \"\\u0061 \\\"b\\\"\"," ++
      "  \"limits\": \x7b\"b\": -5, \"a\": [null, true]\x7d\x7d," ++
      " \x7b\"VirtualHost\": \"00000000000000000000000000000002\"\x7d]"
    (∀ entry ∈ r.attributes.entries, entry.2.Integral ∧ entry.2.Nests 125) ∧
      ofText? s = some r ∧ ofText? r.print = some r ∧
        ∀ again, ofText? r.print = some again → again.print = r.print := by
  intro limits attributes r s
  have hentries : r.attributes.entries = [("name", .text "a \"b\""), ("limits", limits)] := by
    decide +kernel
  have hlimits : limits.Integral ∧ limits.Nests 125 := by
    refine ⟨.object ?_, .object (by decide) ?_⟩ <;>
      simp only [List.forall_mem_cons, List.not_mem_nil, IsEmpty.forall_iff, implies_true, and_true]
    · exact ⟨.integer (by decide), .array (by simp [Value.Integral.null, Value.Integral.bool])⟩
    · exact ⟨.number _, .array (by simp [Value.Nests.null, Value.Nests.bool])⟩
  have hwithin : ∀ entry ∈ r.attributes.entries, entry.2.Integral ∧ entry.2.Nests 125 := by
    rw [hentries]
    simpa using ⟨⟨.text _, .text _⟩, hlimits⟩
  have hs : ofText? s = some r := by decide +kernel
  exact ⟨hwithin, hs, print_lossless.1 r hwithin,
    (print_lossless.2 s r hs fun entry he => (hwithin entry he).1).2⟩

end Record

end BrokerConfig
