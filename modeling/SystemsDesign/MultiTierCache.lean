/-
# The multi-tier cache

Model of `caching/LRUcache_multi-tier_RAM-SSD-HDD.cpp`: a vector of LRU caches, the fastest first,
and the map `key_to_tier`.  A key that is put or read goes to the first tier; a full tier passes its
least recently used entry on to the next one, and the last tier drops it.

`Tiers` is the same cache without its maps: the capacities and entries of the tiers.
-/
import SystemsDesign.LRUcache

namespace MultiTier

open IterList

/-- The fields of `MultiTierCache` and the lines printed so far, the last one first. -/
structure MultiTierCache where
  tiers : List (LRUcache ℤ ℤ)
  keyToTier : Finmap fun _ : ℤ => ℕ := ∅
  printed : List String := []

namespace MultiTierCache

/-- The constructor: a tier for each capacity. -/
def new (capacities : List ℕ) : MultiTierCache :=
  { tiers := capacities.map fun cap => { tcapacity := cap } }

/-- `insert_into_tier`. -/
def insertIntoTier (m : MultiTierCache) (level : ℕ) (key value : ℤ) : Option MultiTierCache :=
  if hlevel : level < m.tiers.length then
    let currLRU := m.tiers[level]
    if currLRU.full = false then
      some { m with
        tiers := m.tiers.set level (currLRU.insert key value)
        keyToTier := m.keyToTier.insert key level }
    else
      -- When the tier is full, evict and insert.
      match currLRU.evictLRU with
      | none => none
      | some (evicted, currLRU) =>
        insertIntoTier
          { m with
            tiers := m.tiers.set level (currLRU.insert key value)
            keyToTier := (m.keyToTier.erase evicted.1).insert key level }
          (level + 1) evicted.1 evicted.2
  else
    some { m with
      keyToTier := m.keyToTier.erase key
      printed := ("Dropped key : " ++ toString key) :: m.printed }
termination_by m.tiers.length - level
decreasing_by
  simp only [List.length_set]
  omega

/-- `put`; `tiers[level]` is undefined beyond the last tier. -/
def put (m : MultiTierCache) (key value : ℤ) : Option MultiTierCache :=
  match m.keyToTier.lookup key with
  | none => m.insertIntoTier 0 key value
  | some level =>
    match m.tiers[level]? with
    | none => none
    | some tier =>
      insertIntoTier
        { m with tiers := m.tiers.set level (tier.erase key), keyToTier := m.keyToTier.erase key }
        0 key value

/-- `get`: the value, or `-1`. -/
def get (m : MultiTierCache) (key : ℤ) : Option (ℤ × MultiTierCache) :=
  match m.keyToTier.lookup key with
  | none => some (-1, m)
  | some level =>
    match m.tiers[level]? with
    | none => none
    | some tier =>
      match tier.removeAndExtractValue key with
      | (none, tier) => some (-1, { m with tiers := m.tiers.set level tier })
      | (some value, tier) =>
        (insertIntoTier
          { m with tiers := m.tiers.set level tier, keyToTier := m.keyToTier.erase key }
          0 key value).map fun m => (value, m)

end MultiTierCache

/-! ## The tiers without their maps -/

/-- The capacity and the entries of each tier. -/
abbrev Tiers := List (ℕ × List (ℤ × ℤ))

namespace Tiers

/-- An entry is put in front of the first tier; a full tier passes its last entry on. -/
def cascade : Tiers → ℤ × ℤ → Tiers
  | [], _ => []
  | (capacity, es) :: rest, e =>
    if es.length < capacity then (capacity, e :: es) :: rest
    else match es.getLast? with
      | none => (capacity, es) :: rest
      | some last => (capacity, e :: es.dropLast) :: cascade rest last

/-- The key is taken out of the tier that has it. -/
def remove (ts : Tiers) (key : ℤ) : Tiers := ts.map fun t => (t.1, without Prod.fst key t.2)

/-- The entries of the tiers, one tier after the other. -/
def entries (ts : Tiers) : List (ℤ × ℤ) := ts.flatMap Prod.snd

end Tiers

namespace MultiTierCache

/-- The capacities and the entries of the tiers. -/
def view (m : MultiTierCache) : Tiers := m.tiers.map fun t => (t.tcapacity, t.entries)

/-- `key_to_tier` leads exactly the cached keys to the tier that holds them. -/
def Exact (tiers : List (LRUcache ℤ ℤ)) (keyToTier : Finmap fun _ : ℤ => ℕ) : Prop :=
  ∀ key level, keyToTier.lookup key = some level ↔
    ∃ tier, tiers[level]? = some tier ∧ key ∈ tier.entries.map Prod.fst

/-- The maps of the cache are right. -/
structure Valid (m : MultiTierCache) : Prop where
  tiers : ∀ t ∈ m.tiers, t.Valid
  positive : ∀ t ∈ m.tiers, 1 ≤ t.tcapacity
  exact : Exact m.tiers m.keyToTier

section Exact

variable {tiers : List (LRUcache ℤ ℤ)} {keyToTier : Finmap fun _ : ℤ => ℕ}

/-- A key that `key_to_tier` does not have is in no tier. -/
theorem Exact.absent (h : Exact tiers keyToTier) {key : ℤ} (hnone : keyToTier.lookup key = none)
    {level : ℕ} {tier : LRUcache ℤ ℤ} (ht : tiers[level]? = some tier) :
    key ∉ tier.entries.map Prod.fst := by
  intro hmem
  have hsome := (h key level).mpr ⟨tier, ht, hmem⟩
  rw [hnone] at hsome
  cases hsome

theorem Exact.remove (h : Exact tiers keyToTier) {key : ℤ} {level : ℕ} {tier tier' : LRUcache ℤ ℤ}
    (ht : tiers[level]? = some tier) (hkey : key ∈ tier.entries.map Prod.fst)
    (hkeys : ∀ k, k ∈ tier'.entries.map Prod.fst ↔ k ∈ tier.entries.map Prod.fst ∧ k ≠ key) :
    Exact (tiers.set level tier') (keyToTier.erase key) := by
  intro k l
  have hlook : keyToTier.lookup key = some level := (h key level).mpr ⟨tier, ht, hkey⟩
  have hlt : level < tiers.length := (List.getElem?_eq_some_iff.mp ht).1
  by_cases hk : k = key
  · subst hk
    rw [Finmap.lookup_erase]
    apply iff_of_false (by simp)
    rintro ⟨t, hl, hmem⟩
    by_cases hlevel : level = l
    · subst hlevel
      rw [List.getElem?_set_self hlt] at hl
      obtain rfl := Option.some.inj hl
      exact ((hkeys k).mp hmem).2 rfl
    · rw [List.getElem?_set_ne hlevel] at hl
      have hother := (h k l).mpr ⟨t, hl, hmem⟩
      exact hlevel (Option.some.inj (hlook.symm.trans hother))
  · rw [Finmap.lookup_erase_ne hk, h k l]
    by_cases hlevel : level = l
    · subst hlevel
      rw [List.getElem?_set_self hlt, ht]
      simp only [Option.some.injEq, exists_eq_left', hkeys, hk, ne_eq, not_false_eq_true, and_true]
    · rw [List.getElem?_set_ne hlevel]

theorem Exact.insert (h : Exact tiers keyToTier) {key : ℤ} (hnone : keyToTier.lookup key = none)
    {level : ℕ} {tier tier' : LRUcache ℤ ℤ} (ht : tiers[level]? = some tier)
    (hkeys : ∀ k, k ∈ tier'.entries.map Prod.fst ↔ k = key ∨ k ∈ tier.entries.map Prod.fst) :
    Exact (tiers.set level tier') (keyToTier.insert key level) := by
  intro k l
  have hlt : level < tiers.length := (List.getElem?_eq_some_iff.mp ht).1
  by_cases hk : k = key
  · subst hk
    rw [Finmap.lookup_insert]
    constructor
    · intro hl
      obtain rfl := Option.some.inj hl
      exact ⟨tier', List.getElem?_set_self hlt, (hkeys k).mpr (Or.inl rfl)⟩
    · rintro ⟨t, hl, hmem⟩
      by_cases hlevel : level = l
      · rw [hlevel]
      · rw [List.getElem?_set_ne hlevel] at hl
        exact absurd hmem (h.absent hnone hl)
  · rw [Finmap.lookup_insert_of_ne _ hk, h k l]
    by_cases hlevel : level = l
    · subst hlevel
      rw [List.getElem?_set_self hlt, ht]
      simp only [Option.some.injEq, exists_eq_left', hkeys, hk, false_or]
    · rw [List.getElem?_set_ne hlevel]

theorem Exact.swap (h : Exact tiers keyToTier) {key : ℤ} (hnone : keyToTier.lookup key = none)
    {level : ℕ} {tier tier₁ tier₂ : LRUcache ℤ ℤ} (ht : tiers[level]? = some tier)
    (hnodup : (tier.entries.map Prod.fst).Nodup) {evicted : ℤ × ℤ} {value : ℤ}
    (h₁ : tier.entries = tier₁.entries ++ [evicted])
    (h₂ : tier₂.entries = (key, value) :: tier₁.entries) :
    Exact (tiers.set level tier₂) ((keyToTier.erase evicted.1).insert key level) ∧
      ((keyToTier.erase evicted.1).insert key level).lookup evicted.1 = none := by
  have hlt : level < tiers.length := (List.getElem?_eq_some_iff.mp ht).1
  have hevicted : evicted.1 ∈ tier.entries.map Prod.fst := by simp [h₁]
  have hne : evicted.1 ≠ key := fun heq => h.absent hnone ht (heq ▸ hevicted)
  have hkeys₁ : ∀ k, k ∈ tier₁.entries.map Prod.fst ↔
      k ∈ tier.entries.map Prod.fst ∧ k ≠ evicted.1 := by
    intro k
    rw [h₁, List.map_append, List.map_singleton, List.nodup_append] at hnodup
    rw [h₁, List.map_append, List.map_singleton, List.mem_append, List.mem_singleton]
    constructor
    · exact fun hk => ⟨Or.inl hk, hnodup.2.2 k hk evicted.1 (List.mem_singleton_self _)⟩
    · exact fun hk => hk.1.resolve_right hk.2
  have hexact₁ := h.remove ht hevicted hkeys₁
  have hnone₁ : (keyToTier.erase evicted.1).lookup key = none := by
    rw [Finmap.lookup_erase_ne hne.symm, hnone]
  refine ⟨?_, ?_⟩
  · have hkeys₂ : ∀ k, k ∈ tier₂.entries.map Prod.fst ↔
        k = key ∨ k ∈ tier₁.entries.map Prod.fst := by
      intro k
      rw [h₂, List.map_cons, List.mem_cons]
    have hexact₂ := hexact₁.insert hnone₁ (List.getElem?_set_self hlt) hkeys₂
    rwa [List.set_set] at hexact₂
  · rw [Finmap.lookup_insert_of_ne _ hne, Finmap.lookup_erase]

end Exact

/-! ## The cascade -/

theorem erase_absent {keyToTier : Finmap fun _ : ℤ => ℕ} {key : ℤ}
    (hnone : keyToTier.lookup key = none) : keyToTier.erase key = keyToTier := by
  apply Finmap.ext_lookup
  intro k
  by_cases hk : k = key
  · rw [hk, Finmap.lookup_erase, hnone]
  · rw [Finmap.lookup_erase_ne hk]

variable {m : MultiTierCache}

theorem length_view (m : MultiTierCache) : m.view.length = m.tiers.length := List.length_map _

theorem drop_view {level : ℕ} (hlevel : level < m.tiers.length) :
    m.view.drop level
      = (m.tiers[level].tcapacity, m.tiers[level].entries) :: m.view.drop (level + 1) := by
  have hlt : level < m.view.length := hlevel.trans_eq m.length_view.symm
  rw [List.drop_eq_getElem_cons hlt]
  simp [view]

/-- A tier is replaced by another one of the same capacity whose map is right. -/
theorem Valid.set (h : m.Valid) {level : ℕ} (hlevel : level < m.tiers.length)
    {tier : LRUcache ℤ ℤ} {keyToTier : Finmap fun _ : ℤ => ℕ} (hvalid : tier.Valid)
    (hcap : tier.tcapacity = m.tiers[level].tcapacity)
    (hexact : Exact (m.tiers.set level tier) keyToTier) :
    ({ m with tiers := m.tiers.set level tier, keyToTier := keyToTier } :
      MultiTierCache).Valid where
  tiers t ht := by
    rcases List.mem_or_eq_of_mem_set ht with ht | rfl
    · exact h.tiers t ht
    · exact hvalid
  positive t ht := by
    rcases List.mem_or_eq_of_mem_set ht with ht | rfl
    · exact h.positive t ht
    · rw [hcap]
      exact h.positive _ (List.getElem_mem hlevel)
  exact := hexact

theorem view_set (m : MultiTierCache) (level : ℕ) (tier : LRUcache ℤ ℤ)
    (keyToTier : Finmap fun _ : ℤ => ℕ) :
    ({ m with tiers := m.tiers.set level tier, keyToTier := keyToTier } : MultiTierCache).view
      = m.view.set level (tier.tcapacity, tier.entries) :=
  List.map_set

theorem take_succ_set {α : Type*} {l : List α} {i : ℕ} (hi : i < l.length) (v : α) :
    (l.set i v).take (i + 1) = l.take i ++ [v] := by
  rw [List.take_add_one, List.take_set_of_le le_rfl, List.getElem?_set_self hi, Option.toList_some]

/-- **The cascade.**  `insert_into_tier` puts a new key in front of the tier, and passes the entry
that falls out of a full tier on to the next one. -/
theorem Valid.insertIntoTier (h : m.Valid) {level : ℕ} {key : ℤ} (value : ℤ)
    (hnone : m.keyToTier.lookup key = none) :
    ∃ m', m.insertIntoTier level key value = some m' ∧ m'.Valid ∧
      m'.view = m.view.take level ++ Tiers.cascade (m.view.drop level) (key, value) := by
  -- Induction on the number of tiers that are left.
  induction hn : m.tiers.length - level generalizing m level key value with
  | zero =>
    have hge : m.tiers.length ≤ level := Nat.le_of_sub_eq_zero hn
    rw [MultiTierCache.insertIntoTier, dif_neg (by omega)]
    refine ⟨_, rfl, ⟨h.tiers, h.positive, ?_⟩, ?_⟩
    · rw [erase_absent hnone]
      exact h.exact
    · have hle : m.view.length ≤ level := m.length_view.trans_le hge
      rw [List.drop_eq_nil_of_le hle, List.take_of_length_le hle, Tiers.cascade, List.append_nil]
      rfl
  | succ n ih =>
    have hlevel : level < m.tiers.length := by omega
    have hmem := List.getElem_mem hlevel
    have ht : m.tiers[level]? = some m.tiers[level] := List.getElem?_eq_getElem hlevel
    have hvalid := h.tiers _ hmem
    have habs : ∀ e ∈ m.tiers[level].entries, e.1 ≠ key := fun e he heq =>
      h.exact.absent hnone ht (heq ▸ List.mem_map_of_mem he)
    rw [MultiTierCache.insertIntoTier, dif_pos hlevel, drop_view hlevel, Tiers.cascade]
    dsimp only
    by_cases hfull : m.tiers[level].full
    · have hle := hvalid.full_iff.mp hfull
      have hne : m.tiers[level].entries ≠ [] := by
        intro hnil
        rw [hnil, List.length_nil] at hle
        exact absurd (h.positive _ hmem) (by omega)
      obtain ⟨victim, t₁, hevict, hvalid₁, hcap₁, hentries⟩ := hvalid.evictLRU hne
      have habs₁ : ∀ e ∈ t₁.entries, e.1 ≠ key := fun e he =>
        habs e (hentries ▸ List.mem_append_left _ he)
      obtain ⟨hvalid₂, hentries₂⟩ := hvalid₁.insert value habs₁
      rw [if_neg (by simp [hfull]), hevict, if_neg (by omega), hentries, List.getLast?_concat,
        List.dropLast_concat]
      dsimp only
      obtain ⟨hexact, hnone'⟩ := h.exact.swap hnone ht hvalid.nodup hentries hentries₂
      have hm₁ := h.set hlevel hvalid₂ hcap₁ hexact
      have hn' : (m.tiers.set level (t₁.insert key value)).length - (level + 1) = n := by
        rw [List.length_set]
        omega
      obtain ⟨m', hm', hvalid', hview'⟩ := ih hm₁ victim.2 hnone' hn'
      refine ⟨m', hm', hvalid', hview'.trans ?_⟩
      have hcap₂ : (t₁.insert key value).tcapacity = m.tiers[level].tcapacity := hcap₁
      rw [view_set, List.drop_set_of_lt (Nat.lt_succ_self level),
        take_succ_set (hlevel.trans_eq m.length_view.symm), hentries₂, hcap₂, List.append_assoc]
      rfl
    · have hlt : m.tiers[level].entries.length < m.tiers[level].tcapacity :=
        not_le.mp fun hle => hfull (hvalid.full_iff.mpr hle)
      rw [if_pos (by simp [hfull]), if_pos hlt]
      obtain ⟨hvalid', hentries'⟩ := hvalid.insert value habs
      refine ⟨_, rfl, h.set hlevel hvalid' rfl (h.exact.insert hnone ht fun k => ?_), ?_⟩
      · rw [hentries', List.map_cons, List.mem_cons]
      · rw [view_set, hentries', List.set_eq_take_append_cons_drop,
          if_pos (hlevel.trans_eq m.length_view.symm)]
        rfl

/-! ## The calls -/

theorem Valid.tier_of_key (h : m.Valid) {key : ℤ} {level : ℕ}
    (hlook : m.keyToTier.lookup key = some level) :
    ∃ tier, m.tiers[level]? = some tier ∧ key ∈ tier.entries.map Prod.fst ∧
      ∀ l t, m.tiers[l]? = some t → key ∈ t.entries.map Prod.fst → l = level := by
  obtain ⟨tier, ht, hmem⟩ := (h.exact key level).mp hlook
  refine ⟨tier, ht, hmem, fun l t hl hkey => ?_⟩
  exact Option.some.inj (((h.exact key l).mpr ⟨t, hl, hkey⟩).symm.trans hlook)

/-- A key that is in no tier: nothing is to be removed, and nothing is found. -/
theorem Valid.absent (h : m.Valid) {key : ℤ} (hnone : m.keyToTier.lookup key = none) :
    m.view.remove key = m.view ∧ LRU.find m.view.entries key = none := by
  have habs : ∀ t ∈ m.view, ∀ e ∈ t.2, e.1 ≠ key := by
    intro t ht e he heq
    obtain ⟨tier, htier, rfl⟩ := List.mem_map.mp ht
    obtain ⟨level, hlevel, rfl⟩ := List.getElem_of_mem htier
    exact h.exact.absent hnone (List.getElem?_eq_getElem hlevel) (heq ▸ List.mem_map_of_mem he)
  constructor
  · conv_rhs => rw [← List.map_id m.view]
    exact List.map_congr_left fun t ht => Prod.ext rfl (without_eq_self (habs t ht))
  · apply LRU.find_eq_none.mpr
    intro e he
    obtain ⟨t, ht, he⟩ := List.mem_flatMap.mp he
    exact habs t ht e he

/-- The search of all tiers finds the entry of the one tier that has the key. -/
theorem Valid.find_view (h : m.Valid) {key : ℤ} {level : ℕ} (hlevel : level < m.tiers.length)
    (honly : ∀ l t, m.tiers[l]? = some t → key ∈ t.entries.map Prod.fst → l = level)
    {e : ℤ × ℤ} (he : e ∈ m.tiers[level].entries) (hek : e.1 = key) :
    LRU.find m.view.entries key = some e := by
  have hmem : ∀ e, e ∈ m.view.entries ↔ ∃ t ∈ m.tiers, e ∈ t.entries := by
    intro e
    simp [Tiers.entries, view]
  cases hfind : LRU.find m.view.entries key with
  | none =>
    have hin := (hmem e).mpr ⟨_, List.getElem_mem hlevel, he⟩
    exact absurd hek (LRU.find_eq_none.mp hfind e hin)
  | some e' =>
    obtain ⟨hin, hek'⟩ := LRU.find_eq_some hfind
    obtain ⟨t, ht, he'⟩ := (hmem e').mp hin
    obtain ⟨l, hl, rfl⟩ := List.getElem_of_mem ht
    obtain rfl := honly l _ (List.getElem?_eq_getElem hl) (hek' ▸ List.mem_map_of_mem he')
    have hnodup := (h.tiers _ ht).nodup
    rw [List.inj_on_of_nodup_map hnodup he' he (hek'.trans hek.symm)]

/-- Taking the key out of the one tier that has it takes it out of the view. -/
theorem Valid.set_eq_remove {key : ℤ} {level : ℕ} (hlevel : level < m.tiers.length)
    (honly : ∀ l t, m.tiers[l]? = some t → key ∈ t.entries.map Prod.fst → l = level) :
    m.view.set level (m.tiers[level].tcapacity, without Prod.fst key m.tiers[level].entries)
      = m.view.remove key := by
  refine List.ext_getElem? fun l => ?_
  by_cases hl : level = l
  · subst hl
    rw [List.getElem?_set_self (hlevel.trans_eq m.length_view.symm)]
    simp [Tiers.remove, view, List.getElem?_eq_getElem hlevel]
  · rw [List.getElem?_set_ne hl, Tiers.remove, List.getElem?_map, view, List.getElem?_map]
    cases ht : m.tiers[l]? with
    | none => rfl
    | some t =>
      have habs : ∀ e ∈ t.entries, e.1 ≠ key := fun e he hek =>
        hl (honly l t ht (hek ▸ List.mem_map_of_mem he)).symm
      simp only [Option.map_some, without_eq_self habs]

/-- The key is taken out of its tier, where its entry is found. -/
theorem Valid.remove (h : m.Valid) {key : ℤ} {level : ℕ}
    (hlook : m.keyToTier.lookup key = some level) :
    ∃ tier e, m.tiers[level]? = some tier ∧ tier.Valid ∧ LRU.find tier.entries key = some e ∧
      LRU.find m.view.entries key = some e ∧
      ∃ m₁ : MultiTierCache,
        { m with tiers := m.tiers.set level (tier.erase key), keyToTier := m.keyToTier.erase key }
          = m₁ ∧ m₁.Valid ∧ m₁.keyToTier.lookup key = none ∧ m₁.view = m.view.remove key := by
  obtain ⟨tier, ht, hkey, honly⟩ := h.tier_of_key hlook
  obtain ⟨hlevel, rfl⟩ := List.getElem?_eq_some_iff.mp ht
  have htier := h.tiers _ (List.getElem_mem hlevel)
  obtain ⟨e, he, hek⟩ := List.mem_map.mp hkey
  obtain ⟨hvalid, hcap, hentries⟩ := htier.erase key
  refine ⟨_, e, ht, htier, (LRU.find_iff htier.nodup).mpr ⟨he, hek⟩,
    h.find_view hlevel honly he hek, _, rfl, ?_, Finmap.lookup_erase _ _, ?_⟩
  · refine h.set hlevel hvalid hcap (h.exact.remove ht hkey fun k => ?_)
    rw [hentries, mem_map_without]
  · rw [view_set, hcap, hentries]
    exact set_eq_remove hlevel honly

/-- From the first tier on the cascade runs through the whole view. -/
theorem Valid.insertFirst (h : m.Valid) {key : ℤ} (value : ℤ)
    (hnone : m.keyToTier.lookup key = none) :
    ∃ m', m.insertIntoTier 0 key value = some m' ∧ m'.Valid ∧
      m'.view = Tiers.cascade m.view (key, value) :=
  h.insertIntoTier value hnone

/-- **`put`** takes the key out of its tier and lets the new entry run through the tiers. -/
theorem Valid.put (h : m.Valid) (key value : ℤ) :
    ∃ m', m.put key value = some m' ∧ m'.Valid ∧
      m'.view = Tiers.cascade (m.view.remove key) (key, value) := by
  rw [MultiTierCache.put]
  cases hlook : m.keyToTier.lookup key with
  | none =>
    rw [(h.absent hlook).1]
    exact h.insertFirst value hlook
  | some level =>
    obtain ⟨tier, -, ht, -, -, -, m₁, hm₁, hvalid₁, hnone₁, hview₁⟩ := h.remove hlook
    simp only [ht, hm₁]
    rw [← hview₁]
    exact hvalid₁.insertFirst value hnone₁

/-- **`get`** returns the value of the key, and lets its entry run through the tiers again. -/
theorem Valid.get (h : m.Valid) (key : ℤ) :
    ∃ m', m.get key = some (((LRU.find m.view.entries key).map Prod.snd).getD (-1), m') ∧
      m'.Valid ∧
      m'.view = match LRU.find m.view.entries key with
        | none => m.view
        | some e => Tiers.cascade (m.view.remove key) e := by
  rw [MultiTierCache.get]
  cases hlook : m.keyToTier.lookup key with
  | none =>
    rw [(h.absent hlook).2]
    exact ⟨m, rfl, h, rfl⟩
  | some level =>
    obtain ⟨tier, e, ht, htier, hfind, hview, m₁, hm₁, hvalid₁, hnone₁, hview₁⟩ := h.remove hlook
    obtain ⟨m', hm', hvalid', hview'⟩ := hvalid₁.insertFirst e.2 hnone₁
    simp only [ht, htier.removeAndExtractValue, hfind, hview, Option.map_some, hm₁, hm']
    refine ⟨m', rfl, hvalid', ?_⟩
    rw [hview', hview₁, ← (LRU.find_eq_some hfind).2]

end MultiTierCache

end MultiTier
