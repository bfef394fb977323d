import BrokerConfig.Proofs.Succession

namespace BrokerConfig

def Category.LastPart (tag short : String) : Prop :=
  '.' ∉ short.toList ∧ (tag = short ∨ ∃ package, tag = package ++ "." ++ short)

theorem Category.afterLastDot_split (chars : List Char) :
    chars = afterLastDot chars ∨ ∃ before, chars = before ++ '.' :: afterLastDot chars := by
  induction chars with
  | nil => exact .inl rfl
  | cons c rest ih =>
    unfold afterLastDot
    split
    · rename_i hdot
      rcases ih with hrest | ⟨before, hrest⟩
      · -- the part behind the last dot has none, the rest has one
        exact absurd hdot (hrest ▸ dot_not_mem_afterLastDot rest)
      · exact .inr ⟨c :: before, congrArg (c :: ·) hrest⟩
    · split
      · rename_i hc
        exact .inr ⟨[], by rw [hc]; rfl⟩
      · exact .inl rfl

theorem Category.lastPart_short (tag : String) : LastPart tag (short tag) := by
  have hshort : (short tag).toList = afterLastDot tag.toList := String.toList_ofList
  refine ⟨hshort ▸ dot_not_mem_afterLastDot _, ?_⟩
  rcases afterLastDot_split tag.toList with htag | ⟨before, htag⟩
  · exact .inl (String.toList_injective (htag.trans hshort.symm))
  · refine .inr ⟨String.ofList before, String.toList_injective ?_⟩
    simpa [hshort] using htag

namespace Upgrade.ShortTypes

variable {host : Host} {s t : RecordSet} {c : Changes}

structure Shortens (r u : Record) : Prop where
  id : u.id = r.id
  category : Category.LastPart r.category u.category
  parents : u.parents = r.parents
  attributes : u.category ≠ Category.virtualHost → u.attributes = r.attributes
  versioned : u.category = Category.virtualHost →
    u.attributes = r.attributes.insert Attribute.modelVersion (.text target)

theorem shortens_renamed (r : Record) : Shortens r (renamed r) where
  id := id_renamed r
  category := category_renamed r ▸ Category.lastPart_short r.category
  parents := (BindingLists.Retains.renamed r).parents
  attributes hc := by
    rw [category_renamed] at hc
    unfold renamed
    dsimp only
    split
    · rename_i hroot
      exact absurd hroot hc
    · rfl
  versioned hc := by
    rw [category_renamed] at hc
    unfold renamed
    dsimp only
    split
    · rfl
    · rename_i hroot
      exact absurd hc hroot

structure Prunes (host : Host) (s t : RecordSet) : Prop where
  origin : ∀ u ∈ t.records, ∃ r ∈ s.records, Shortens r u
  order : t.ids.Sublist s.ids
  others : ∀ r ∈ s.records, r.isCategory Category.binding = false → r.id ∈ t.ids
  bindings : ∀ b ∈ s.records, b.isCategory Category.binding → (b.id ∈ t.ids ↔ Anchored host s b)
  whole : ∀ b ∈ t.records, b.isCategory Category.binding → Anchored host t b

theorem mem_ids_apply (h : Decides (verdict host s) RecordSet.empty s c) {r : Record}
    (hr : r ∈ s.records) :
    r.id ∈ (s.apply c).ids ↔ (r.isCategory Category.binding → Anchored host s r) := by
  rw [RecordSet.mem_ids]
  constructor
  · rintro ⟨u, hu, hid⟩
    obtain ⟨r', hr', hl⟩ := h.mem_apply_iff.1 hu
    have hsame : r'.id = r.id := ((h.about r' hr').id_left? hl).symm.trans hid
    cases RecordSet.eq_of_mem hr' hr hsame
    exact (left?_eq_some_iff.1 hl).2
  · intro hanchored
    exact ⟨renamed r, h.mem_apply_iff.2 ⟨r, hr, left?_eq_some_iff.2 ⟨rfl, hanchored⟩⟩,
      id_renamed r⟩

theorem prunes (h : Decides (verdict host s) RecordSet.empty s c) : Prunes host s (s.apply c) where
  origin u hu := by
    obtain ⟨r, hr, hl⟩ := h.mem_apply_iff.1 hu
    exact ⟨r, hr, (left?_eq_some_iff.1 hl).1 ▸ shortens_renamed r⟩
  order := by
    rw [RecordSet.ids, h.records_apply]
    exact RecordSet.ids_filterMap_sublist fun r hr u hu => (h.about r hr).id_left? hu
  others r hr hb := (mem_ids_apply h hr).2 fun hbinding => by
    rw [hb] at hbinding
    cases hbinding
  bindings b hb hbinding := by
    rw [mem_ids_apply h hb]
    exact ⟨fun hanchored => hanchored hbinding, fun hanchored _ => hanchored⟩
  whole _ hb hbinding := anchored h hb hbinding

/-- The step never fails, and of the bindings it keeps those that have both parents. -/
theorem effect_prunes (config : Config) (s : RecordSet) :
    ∃ c, (passes (Host.ofConfig config)).effect s = .ok c ∧
      Prunes (Host.ofConfig config) s (s.apply c) := by
  obtain ⟨c, he, hc⟩ := (@decides s (Host.ofConfig config)).effect_ok
  exact ⟨c, he, prunes hc⟩

end Upgrade.ShortTypes

end BrokerConfig
