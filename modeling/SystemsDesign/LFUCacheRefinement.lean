/-
# The LFU cache follows the LFU policy

One invariant ties the structures of the cache together: the lists of the frequencies are the parts
of the recency order, and `minFrequency` is the least frequency of the entries.  Every call keeps it
up, so the list that an eviction takes its victim from is never empty.
-/
import SystemsDesign.LFUCache
import SystemsDesign.TransitionSystem

namespace LFU

open IterList PointerHeap

/-- `minFrequency` is the least number of uses, unless there are no entries. -/
structure LeastFrequency (minFrequency : ℤ) (es : List Node) : Prop where
  attained : es ≠ [] → ∃ e ∈ es, e.freq = minFrequency
  least : ∀ e ∈ es, minFrequency ≤ e.freq

theorem LeastFrequency.leastUsed_eq {m : ℤ} {es : List Node} (h : LeastFrequency m es) :
    Policy.leastUsed es = es.filter fun e => e.freq = m := by
  apply List.filter_congr
  intro e he
  obtain ⟨e₀, he₀, hmin⟩ := h.attained (List.ne_nil_of_mem he)
  rw [decide_eq_decide]
  constructor
  · intro hall
    exact le_antisymm (hmin ▸ hall e₀ he₀) (h.least e he)
  · intro heq e' he'
    exact heq.trans_le (h.least e' he')

/-- The cache holds these entries. -/
structure Holds (c : LFUCache) (capacity : ℕ) (es : List Node) : Prop where
  capacity_eq : c.tcapacity = capacity
  all : ∃ all : IterList Node, c.Represents all ∧ all.values = es
  least : LeastFrequency c.minFrequency es
  positive : ∀ e ∈ es, 1 ≤ e.freq
  bounded : es.length ≤ capacity

namespace Holds

variable {c : LFUCache} {capacity : ℕ} {es : List Node}

theorem nodup (h : Holds c capacity es) : (es.map Node.key).Nodup := by
  obtain ⟨all, hall, rfl⟩ := h.all
  exact hall.indexed.keys_nodup

theorem find_eq_none (h : Holds c capacity es) {key : ℤ} (hnone : c.mm.lookup key = none) :
    Policy.find es key = none := by
  obtain ⟨all, hall, rfl⟩ := h.all
  exact (hall.indexed.find?_eq key).trans (by rw [hnone]; rfl)

theorem card_eq (h : Holds c capacity es) : c.mm.keys.card = es.length := by
  obtain ⟨all, hall, rfl⟩ := h.all
  exact hall.indexed.card_keys

end Holds

/-! ## A use of an entry -/

/-- The least frequency after an entry is used: it grows with the entry if that was the last one
with the least frequency. -/
theorem LeastFrequency.use {m : ℤ} {es : List Node} (h : LeastFrequency m es)
    (hnodup : (es.map Node.key).Nodup) {e : Node} (he : e ∈ es) :
    LeastFrequency
      (if (∀ e' ∈ without Node.key e.key es, e'.freq ≠ e.freq) ∧ m = e.freq then m + 1 else m)
      ({ e with freq := e.freq + 1 } :: without Node.key e.key es) := by
  have hle := h.least e he
  have hrest : ∀ e' ∈ without Node.key e.key es, m ≤ e'.freq := fun e' he' =>
    h.least e' (mem_without.mp he').1
  split_ifs with hcond
  · obtain ⟨hlast, rfl⟩ := hcond
    refine ⟨fun _ => ⟨_, List.mem_cons_self, rfl⟩, List.forall_mem_cons.mpr ⟨le_rfl, ?_⟩⟩
    intro e' he'
    have hlt := lt_of_le_of_ne (hrest e' he') (hlast e' he').symm
    omega
  · refine ⟨fun _ => ?_, List.forall_mem_cons.mpr ⟨by show m ≤ e.freq + 1; omega, hrest⟩⟩
    -- Another entry has the least frequency.
    by_cases hm : m = e.freq
    · have hother : ∃ e' ∈ without Node.key e.key es, e'.freq = e.freq := by
        by_contra hnone
        exact hcond ⟨fun e' he' heq => hnone ⟨e', he', heq⟩, hm⟩
      obtain ⟨e', he', heq⟩ := hother
      exact ⟨e', List.mem_cons_of_mem _ he', heq.trans hm.symm⟩
    · obtain ⟨e', he', heq⟩ := h.attained (List.ne_nil_of_mem he)
      have hne : e'.key ≠ e.key := by
        intro hkey
        rw [List.inj_on_of_nodup_map hnodup he' he hkey] at heq
        exact hm heq.symm
      exact ⟨e', List.mem_cons_of_mem _ (mem_without.mpr ⟨he', hne⟩), heq⟩

/-- The list of a frequency is empty without a node if no other entry has the frequency. -/
theorem LFUCache.Represents.bucket_erase_eq_nil {c : LFUCache} {all : IterList Node}
    (h : c.Represents all) {it : Addr} {e : Node} (hmem : (it, e) ∈ all.nodes) (f : ℤ) :
    (c.bucket f).erase it = [] ↔ ∀ e' ∈ without Node.key e.key all.values, e'.freq ≠ f := by
  have hlook : c.mm.lookup e.key = some it := (h.indexed _ _).mpr ⟨e, hmem, rfl⟩
  rw [List.eq_nil_iff_forall_not_mem]
  constructor
  · rintro hnil e' he' rfl
    obtain ⟨hvalue, hne⟩ := mem_without.mp he'
    obtain ⟨a, ha⟩ := mem_values.mp hvalue
    refine hnil a ((h.bucket_nodup _).mem_erase_iff.mpr
      ⟨fun heq => ?_, h.mem_bucket.mpr ⟨e', ha, rfl⟩⟩)
    exact hne ((h.indexed.addr_eq_iff hlook ha).mp heq)
  · intro hall a ha
    obtain ⟨hne, hbucket⟩ := (h.bucket_nodup _).mem_erase_iff.mp ha
    obtain ⟨e', ha', hf⟩ := h.mem_bucket.mp hbucket
    refine hall e' (mem_without.mpr ⟨mem_values.mpr ⟨a, ha'⟩, fun hkey => ?_⟩) hf
    exact hne ((h.indexed.addr_eq_iff hlook ha').mpr hkey)

/-- `mm[key] = it` is the same after an erasure of the key. -/
theorem insert_erase (mm : Finmap fun _ : ℤ => Addr) (key : ℤ) (it : Addr) :
    (mm.erase key).insert key it = mm.insert key it := by
  apply Finmap.ext_lookup
  intro k
  by_cases hk : k = key
  · rw [hk, Finmap.lookup_insert, Finmap.lookup_insert]
  · rw [Finmap.lookup_insert_of_ne _ hk, Finmap.lookup_insert_of_ne _ hk,
      Finmap.lookup_erase_ne hk]

/-- `updateFreq` moves the node of a key to the front of the next frequency. -/
theorem LFUCache.Represents.updateFreq {c : LFUCache} {all : IterList Node}
    (h : c.Represents all) {key : ℤ} {it : Addr} (hlook : c.mm.lookup key = some it) :
    ∃ e c', c.nodes.cell it = some e ∧ Policy.find all.values key = some e ∧
      c.updateFreq key = some c' ∧ c'.tcapacity = c.tcapacity ∧
      c'.minFrequency = (if (∀ e' ∈ without Node.key e.key all.values, e'.freq ≠ e.freq) ∧
        c.minFrequency = e.freq then c.minFrequency + 1 else c.minFrequency) ∧
      c'.Represents ((all.erase it).pushFront { e with freq := e.freq + 1 }) := by
  obtain ⟨e, hcell, hmem, rfl⟩ := h.cell_of_lookup hlook
  have hfind : Policy.find all.values e.key = some e := by
    refine (h.indexed.find?_eq e.key).trans ?_
    rw [hlook]
    exact get?_eq_some_iff.mpr hmem
  rw [LFUCache.updateFreq, hlook]
  simp only [hcell]
  refine ⟨e, _, rfl, hfind, rfl, rfl, ?_, ?_⟩
  · show (if _ ∧ _ then _ else _) = _
    simp only [h.bucket_erase_eq_nil hmem]
  · -- The source overwrites the iterator of the key, which is the same as erasing it first.
    let minFrequency := if (c.bucket e.freq).erase it = [] ∧ c.minFrequency = e.freq then
      c.minFrequency + 1 else c.minFrequency
    let c₁ : LFUCache := { c with
      nodes := c.nodes.free it
      sameFreq := c.shrink e.freq ((c.bucket e.freq).erase it)
      minFrequency := minFrequency
      mm := c.mm.erase e.key }
    have hremoved : c₁.Represents (all.erase it) := h.remove hmem rfl rfl rfl
    have hpush := hremoved.push { e with freq := e.freq + 1 } (Finmap.lookup_erase _ _)
    have hmm : (c₁.pushFront { e with freq := e.freq + 1 }).mm
        = c.mm.insert e.key (c.nodes.free it).next := insert_erase _ _ _
    have hindexed := hpush.indexed
    rw [hmm] at hindexed
    exact ⟨hpush.next_eq, hpush.cell_iff, hindexed, hpush.lists⟩

/-- The values after a node is erased and another one with its key is put in front. -/
theorem values_replace {all : IterList Node} {mm : Finmap fun _ : ℤ => ℕ}
    (h : all.Indexed Node.key mm) {key : ℤ} {it : Addr} (hlook : mm.lookup key = some it)
    (node : Node) :
    ((all.erase it).pushFront node).values = node :: without Node.key key all.values := by
  rw [values_pushFront, h.values_erase hlook]

/-- **`updateFreq`** counts a use of the entry and moves it to the front. -/
theorem Holds.updateFreq {c : LFUCache} {capacity : ℕ} {es : List Node} (h : Holds c capacity es)
    {key : ℤ} {it : Addr} (hlook : c.mm.lookup key = some it) :
    ∃ e c', c.nodes.cell it = some e ∧ Policy.find es key = some e ∧
      c.updateFreq key = some c' ∧
      Holds c' capacity ({ e with freq := e.freq + 1 } :: without Node.key key es) := by
  obtain ⟨all, hall, rfl⟩ := h.all
  obtain ⟨e, c', hcell, hfind, hupdate, hcap, hmin, hall'⟩ := hall.updateFreq hlook
  have he : e ∈ all.values := List.mem_of_find?_eq_some hfind
  obtain rfl : e.key = key := by simpa using List.find?_some hfind
  refine ⟨e, c', hcell, hfind, hupdate, hcap.trans h.capacity_eq,
    ⟨_, hall', values_replace hall.indexed hlook _⟩, ?_, ?_, ?_⟩
  · rw [hmin]
    exact h.least.use h.nodup he
  · have hpos := h.positive e he
    refine List.forall_mem_cons.mpr ⟨by show 1 ≤ e.freq + 1; omega, fun e' he' => ?_⟩
    exact h.positive e' (mem_without.mp he').1
  · exact (length_without h.nodup he).trans_le h.bounded

/-! ## Overwriting a value -/

/-- The value of a key is overwritten. -/
def overwrite (key value : ℤ) (e : Node) : Node :=
  if e.key = key then { e with value := value } else e

theorem overwrite_key (key value : ℤ) (e : Node) : (overwrite key value e).key = e.key := by
  rw [overwrite]
  split_ifs <;> rfl

theorem overwrite_freq (key value : ℤ) (e : Node) : (overwrite key value e).freq = e.freq := by
  rw [overwrite]
  split_ifs <;> rfl

/-- The write `mm[key]->value = value`. -/
theorem LFUCache.Represents.store {c : LFUCache} {all : IterList Node} (h : c.Represents all)
    {it : Addr} {node : Node} (hmem : (it, node) ∈ all.nodes) (value : ℤ) :
    ({ c with nodes := c.nodes.store it { node with value := value } } : LFUCache).Represents
      (all.modify it fun n => { n with value := value }) := by
  refine ⟨h.next_eq, fun a v => ?_, h.indexed.modify it fun _ => rfl, fun f => ?_⟩
  · dsimp only
    by_cases ha : a = it
    · subst ha
      rw [Heap.cell_store_self, mem_modify_self]
      constructor
      · exact fun heq => ⟨node, hmem, Option.some.inj heq⟩
      · rintro ⟨w, hw, rfl⟩
        rw [(Prod.mk.inj (node_unique hw hmem rfl)).2]
    · rw [Heap.cell_store_of_ne ha, h.cell_iff, mem_modify_of_ne ha]
  · -- Neither the addresses nor the frequencies change.
    rw [IterList.modify, List.filter_map, List.map_map]
    apply (h.lists f).trans
    have hfilter : all.nodes.filter ((fun n => decide (n.2.freq = f)) ∘ fun n =>
        if n.1 = it then (n.1, { n.2 with value := value }) else n)
        = all.nodes.filter fun n => n.2.freq = f := by
      apply List.filter_congr
      intro n _
      dsimp only [Function.comp]
      split_ifs <;> rfl
    rw [hfilter]
    apply List.map_congr_left
    intro n _
    dsimp only [Function.comp]
    split_ifs <;> rfl

/-- The cache after a value is overwritten. -/
theorem Holds.store {c : LFUCache} {capacity : ℕ} {es : List Node} (h : Holds c capacity es)
    {key : ℤ} {it : Addr} (hlook : c.mm.lookup key = some it) {node : Node}
    (hcell : c.nodes.cell it = some node) (value : ℤ) :
    Holds { c with nodes := c.nodes.store it { node with value := value } } capacity
      (es.map (overwrite key value)) := by
  obtain ⟨all, hall, rfl⟩ := h.all
  have hmem := (hall.cell_iff it node).mp hcell
  refine ⟨h.capacity_eq, ⟨_, hall.store hmem value, hall.indexed.values_modify hlook _⟩, ⟨?_, ?_⟩,
    ?_, ?_⟩
  · intro hne
    obtain ⟨e, he, hmin⟩ := h.least.attained fun hnil => hne (by rw [hnil]; rfl)
    exact ⟨_, List.mem_map_of_mem he, (overwrite_freq key value e).trans hmin⟩
  · intro e' he'
    obtain ⟨e, he, rfl⟩ := List.mem_map.mp he'
    exact (h.least.least e he).trans_eq (overwrite_freq key value e).symm
  · intro e' he'
    obtain ⟨e, he, rfl⟩ := List.mem_map.mp he'
    exact (h.positive e he).trans_eq (overwrite_freq key value e).symm
  · rw [List.length_map]
    exact h.bounded

theorem without_overwrite (key value : ℤ) (es : List Node) :
    without Node.key key (es.map (overwrite key value)) = without Node.key key es := by
  rw [without, List.filter_map]
  have hfilter : es.filter ((fun e => decide (e.key ≠ key)) ∘ overwrite key value)
      = without Node.key key es :=
    List.filter_congr fun e _ => by rw [Function.comp, overwrite_key]
  rw [hfilter]
  conv_rhs => rw [← List.map_id (without Node.key key es)]
  exact List.map_congr_left fun e he => if_neg (mem_without.mp he).2

/-- The entry of a key after its value is overwritten. -/
theorem find_overwrite (key value : ℤ) (es : List Node) :
    Policy.find (es.map (overwrite key value)) key
      = (Policy.find es key).map fun e => { e with value := value } := by
  rw [Policy.find, List.find?_map]
  have hfind : es.find? ((fun e => decide (e.key = key)) ∘ overwrite key value)
      = Policy.find es key := by
    refine congrArg (fun p => List.find? p es) (funext fun e => ?_)
    rw [Function.comp, overwrite_key]
  rw [hfind]
  refine Option.map_congr fun e he => if_pos ?_
  simpa using List.find?_some he

/-! ## Evicting and inserting -/

/-- **The victim.**  When there are entries, the list of the least frequency is not empty, and its
last node is the victim of the policy. -/
theorem Holds.evict {c : LFUCache} {capacity : ℕ} {es : List Node} (h : Holds c capacity es)
    (hne : es ≠ []) :
    c.bucket c.minFrequency ≠ [] ∧ ∃ c' all', c.evict = some c' ∧ c'.tcapacity = c.tcapacity ∧
      c'.Represents all' ∧ all'.values = Policy.evict es ∧
      (Policy.evict es).length < es.length := by
  obtain ⟨all, hall, rfl⟩ := h.all
  have hleast := h.least.leastUsed_eq
  obtain ⟨e, he, hmin⟩ := h.least.attained hne
  have hparts : all.values.filter (fun e => e.freq = c.minFrequency)
      = (all.nodes.filter fun n => n.2.freq = c.minFrequency).map Prod.snd :=
    (filter_map_snd (fun e => decide (e.freq = c.minFrequency)) all.nodes).symm
  have hbucket := hall.lists c.minFrequency
  rcases List.eq_nil_or_concat' (all.nodes.filter fun n => n.2.freq = c.minFrequency)
    with hnil | ⟨front, ⟨it, v⟩, hconcat⟩
  · rw [hnil, List.map_nil, List.filter_eq_nil_iff] at hparts
    exact absurd (decide_eq_true hmin) (hparts e he)
  · rw [hconcat, List.map_append] at hbucket hparts
    obtain ⟨hmem, hfreq⟩ : (it, v) ∈ all.nodes ∧ v.freq = c.minFrequency := by
      have hlast : (it, v) ∈ all.nodes.filter fun n => n.2.freq = c.minFrequency := by
        rw [hconcat]
        simp
      simpa using List.mem_filter.mp hlast
    have herase : (c.bucket c.minFrequency).erase it = (c.bucket c.minFrequency).dropLast := by
      have hnodup := hall.bucket_nodup c.minFrequency
      rw [hbucket] at hnodup ⊢
      rw [List.nodup_append] at hnodup
      have hit : it ∉ front.map Prod.fst := fun hmem => hnodup.2.2 it hmem it (by simp) rfl
      rw [List.map_singleton, List.dropLast_concat, List.erase_append_right _ hit]
      simp
    have hlook : c.mm.lookup v.key = some it := (hall.indexed _ _).mpr ⟨v, hmem, rfl⟩
    have hvictim : Policy.evict all.values = without Node.key v.key all.values := by
      rw [Policy.evict, Policy.victim, hleast, hparts, List.map_singleton, List.getLast?_concat]
    refine ⟨by rw [hbucket]; simp, ?_⟩
    rw [LFUCache.evict, hvictim]
    have hget : (c.bucket c.minFrequency).getLast? = some it := by
      rw [hbucket, List.map_singleton, List.getLast?_concat]
    simp only [hget, (hall.cell_iff it v).mpr hmem]
    refine ⟨_, all.erase it, rfl, rfl, hall.remove hmem rfl ?_ rfl, ?_, ?_⟩
    · rw [hfreq, herase]
    · exact hall.indexed.values_erase hlook
    · have hlen := length_without hall.indexed.keys_nodup (mem_values.mpr ⟨it, hmem⟩)
      omega

theorem insertNew_holds {c : LFUCache} {capacity : ℕ} {all : IterList Node}
    (h : c.Represents all) (hcap : c.tcapacity = capacity) (hroom : all.values.length < capacity)
    (hpos : ∀ e ∈ all.values, 1 ≤ e.freq) {key : ℤ} (value : ℤ)
    (hnone : c.mm.lookup key = none) :
    Holds (c.insertNew key value) capacity (⟨key, value, 1⟩ :: all.values) := by
  have hmin : ({ c with minFrequency := 1 } : LFUCache).Represents all :=
    ⟨h.next_eq, h.cell_iff, h.indexed, h.lists⟩
  refine ⟨hcap, ⟨_, hmin.push ⟨key, value, 1⟩ hnone, rfl⟩, ⟨fun _ => ?_, ?_⟩, ?_, hroom⟩
  · exact ⟨_, List.mem_cons_self, rfl⟩
  · exact List.forall_mem_cons.mpr ⟨le_rfl, hpos⟩
  · exact List.forall_mem_cons.mpr ⟨le_rfl, hpos⟩

/-! ## The calls -/

theorem Holds.get {c : LFUCache} {capacity : ℕ} {es : List Node} (h : Holds c capacity es)
    (key : ℤ) :
    ∃ c', c.get key = some ((Policy.get es key).1, c') ∧
      Holds c' capacity (Policy.get es key).2 := by
  rw [LFUCache.get, Policy.get]
  cases hlook : c.mm.lookup key with
  | none =>
    rw [h.find_eq_none hlook]
    exact ⟨c, rfl, h⟩
  | some it =>
    obtain ⟨e, c', hcell, hfind, hupdate, hholds⟩ := h.updateFreq hlook
    simp only [hcell, hupdate, hfind]
    exact ⟨c', rfl, hholds⟩

theorem evict_sublist (es : List Node) : (Policy.evict es).Sublist es := by
  rw [Policy.evict]
  cases Policy.victim es with
  | none => exact List.Sublist.refl es
  | some v => exact without_sublist _ _

theorem Holds.put {c : LFUCache} {capacity : ℕ} {es : List Node} (h : Holds c capacity es)
    (key value : ℤ) :
    ∃ c', c.put key value = some c' ∧ Holds c' capacity (Policy.put capacity es key value) := by
  rw [LFUCache.put, Policy.put]
  by_cases hzero : capacity = 0
  · rw [if_pos (h.capacity_eq.trans hzero), if_pos hzero]
    exact ⟨c, rfl, h⟩
  rw [if_neg fun hz => hzero (h.capacity_eq.symm.trans hz), if_neg hzero]
  cases hlook : c.mm.lookup key with
  | some it =>
    obtain ⟨all, hall, rfl⟩ := h.all
    obtain ⟨node, hcell, -, -⟩ := hall.cell_of_lookup hlook
    obtain ⟨e, c', -, hfind, hupdate, hholds⟩ := (h.store hlook hcell value).updateFreq hlook
    rw [find_overwrite, Option.map_eq_some_iff] at hfind
    obtain ⟨e₀, hfind₀, rfl⟩ := hfind
    rw [without_overwrite] at hholds
    obtain rfl : e₀.key = key := by simpa using List.find?_some hfind₀
    simp only [hcell, hupdate, hfind₀]
    exact ⟨c', rfl, hholds⟩
  | none =>
    have hnone := h.find_eq_none hlook
    have habs : ∀ e ∈ es, e.key ≠ key := fun e he => by
      simpa using List.find?_eq_none.mp hnone e he
    rw [hnone, h.card_eq, h.capacity_eq]
    dsimp only
    by_cases hfull : es.length = capacity
    · rw [if_pos hfull, if_pos hfull]
      have hne : es ≠ [] := by
        rintro rfl
        exact hzero hfull.symm
      obtain ⟨-, c', all', hevict, hcap, hall', hvalues, hlen⟩ := h.evict hne
      have hsub := evict_sublist es
      rw [← hvalues] at hlen hsub ⊢
      rw [hevict]
      refine ⟨_, rfl, insertNew_holds hall' (hcap.trans h.capacity_eq) (by omega)
        (fun e he => h.positive e (hsub.subset he)) value ?_⟩
      exact hall'.indexed.lookup_eq_none_iff.mpr fun e he => habs e (hsub.subset he)
    · rw [if_neg hfull, if_neg hfull]
      obtain ⟨all, hall, rfl⟩ := h.all
      have hle := h.bounded
      exact ⟨_, rfl, insertNew_holds hall h.capacity_eq (by omega) h.positive value hlook⟩

theorem Holds.call {s : Session} {r : Reference} {capacity : ℕ}
    (h : Holds s.cache capacity r.entries ∧ s.results = r.results) (c : Call) :
    ∃ s', s.call c = some s' ∧ Holds s'.cache capacity (r.call capacity c).entries ∧
      s'.results = (r.call capacity c).results := by
  obtain ⟨hholds, hresults⟩ := h
  cases c with
  | get key =>
    obtain ⟨c', hc', hholds'⟩ := hholds.get key
    refine ⟨⟨c', _⟩, by rw [Session.call, hc', Option.map_some], hholds', ?_⟩
    rw [hresults]
    rfl
  | put key value =>
    obtain ⟨c', hc', hholds'⟩ := hholds.put key value
    exact ⟨⟨c', s.results⟩, by rw [Session.call, hc', Option.map_some], hholds', hresults⟩

/-- **LFU policy.**  For every capacity and all calls the cache gives the results of the reference
and holds its entries, at most `capacity` of them: the map leads exactly the keys of the reference
to nodes with its values and counts.  In every state in which a put would evict, the list
`same_freq[minFrequency]` is not empty. -/
theorem lfu_policy (capacity : ℕ) (calls : List Call) :
    ∃ s : Session,
      TransitionSystem.run Session.call { cache := { tcapacity := capacity } } calls = some s ∧
      s.results = (calls.foldl (Reference.call capacity) {}).results ∧
      (∀ e, e ∈ (calls.foldl (Reference.call capacity) {}).entries ↔
        ∃ it, s.cache.mm.lookup e.key = some it ∧ s.cache.nodes.cell it = some e) ∧
      s.cache.mm.keys.card = (calls.foldl (Reference.call capacity) {}).entries.length ∧
      s.cache.mm.keys.card ≤ capacity ∧
      (1 ≤ capacity → s.cache.mm.keys.card = capacity →
        s.cache.bucket s.cache.minFrequency ≠ []) := by
  have hnew : Holds { tcapacity := capacity } capacity [] :=
    ⟨rfl, ⟨_, LFUCache.represents_new capacity, rfl⟩, ⟨fun hne => absurd rfl hne, by simp⟩, by simp,
      Nat.zero_le _⟩
  obtain ⟨s, hrun, h, hresults⟩ := TransitionSystem.run_refines
    (R := fun (s : Session) (r : Reference) =>
      Holds s.cache capacity r.entries ∧ s.results = r.results)
    (fun _ _ c h => Holds.call h c)
    (show Holds ({ cache := { tcapacity := capacity } } : Session).cache capacity
      ({} : Reference).entries ∧ _ from ⟨hnew, rfl⟩) calls
  refine ⟨s, hrun, hresults, fun e => ?_, h.card_eq, ?_, fun hpos hfull => ?_⟩
  · obtain ⟨all, hall, hvalues⟩ := h.all
    rw [← hvalues, mem_values]
    constructor
    · rintro ⟨it, hmem⟩
      exact ⟨it, (hall.indexed _ _).mpr ⟨e, hmem, rfl⟩, (hall.cell_iff it e).mpr hmem⟩
    · rintro ⟨it, -, hcell⟩
      exact ⟨it, (hall.cell_iff it e).mp hcell⟩
  · exact h.card_eq.trans_le h.bounded
  · refine (h.evict fun hnil => ?_).1
    rw [h.card_eq, hnil, List.length_nil] at hfull
    omega

end LFU
