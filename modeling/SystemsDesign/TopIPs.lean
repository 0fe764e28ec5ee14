/-
# The most frequent addresses of a log

Model of `large-scale-processing/top_100IP_in_500GB_logs.cpp`.  `partition_file` distributes the
words of the log over bucket files by their hashes; `top_K_IPs` counts the words of one bucket
after the other and passes every word with its count through a priority queue that never keeps more
than `K` of them.

The hash function, the priority queue and the order in which a hash map is iterated are arbitrary.
All occurrences of a word are in one bucket, so that the entries that are offered to the queue are
the words of the log with their counts (`offered_iff`); the queue keeps `K` best of what it has seen
(`TopSelection.Leads`).
-/
import SystemsDesign.ComparatorAlgorithms
import SystemsDesign.RecordStreams
import SystemsDesign.TopSelection

namespace TopIPs

open ComparatorAlgorithms RecordStreams TopSelection WhitespaceTokens

/-- A word and how often it was counted. -/
structure Entry where
  ip : Text
  count : ℕ
  deriving DecidableEq, Repr

/-- `Compare`: the greater count is below the smaller one. -/
def Compare (a b : Entry) : Prop := b.count < a.count

/-- `NUM_BUCKETS`. -/
def numBuckets : ℕ := 100

/-- `BUCKET_DIR + "/bucket_" + to_string(i) + ".txt"`. -/
def bucketFile (i : ℕ) : Text := "top_buckets/bucket_".toList ++ (decimal i ++ ".txt".toList)

/-! ## The two phases -/

/-- The bucket files are opened, which truncates them. -/
def openBuckets (files : Files) : Files :=
  (List.range numBuckets).foldl (fun files i => Function.update files (bucketFile i) []) files

/-- A word is written to the bucket of its hash. -/
def writeIP (hash : Text → ℕ) (files : Files) (ip : Text) : Files :=
  let bucket := bucketFile (hash ip % numBuckets)
  Function.update files bucket (files bucket ++ (ip ++ ['\n']))

/-- `partition_file(input_file)`. -/
def partitionFile (hash : Text → ℕ) (inputFile : Text) (files : Files) : Files :=
  let opened := openBuckets files
  (wordReader.all (opened inputFile)).foldl (writeIP hash) opened

/-- `freq[ip]++`. -/
def countIP : List Entry → Text → List Entry
  | [], ip => [⟨ip, 1⟩]
  | e :: freq, ip => if e.ip = ip then ⟨ip, e.count + 1⟩ :: freq else e :: countIP freq ip

/-- `freq`, after the words of a bucket. -/
def countAll (words : List Text) : List Entry := words.foldl countIP []

/-- `pq.push({ip, count}); if (pq.size() > K) pq.pop();`. -/
def offer (P : PriorityQueue Compare) (K : ℕ) (pq : P.Queue) (e : Entry) : P.Queue :=
  let pq := P.push pq e
  if K < (P.elems pq).card then P.pop pq else pq

/-- `top_K_IPs(K)`; `order i` is the order in which the hash map of bucket `i` is iterated. -/
def topKIPs (P : PriorityQueue Compare) (order : ℕ → List Entry → List Entry) (K : ℕ)
    (files : Files) : List Entry :=
  let pq := (List.range numBuckets).foldl (fun pq i =>
    (order i (countAll (wordReader.all (files (bucketFile i))))).foldl (offer P K) pq) P.empty
  (P.drain pq).reverse

/-! ## The buckets -/

theorem bucketFile_injective : Function.Injective bucketFile :=
  numbered_injective "top_buckets/bucket_".toList (by decide) "txt".toList

/-- Opening the buckets leaves the other files alone. -/
theorem openBuckets_of_ne {name : Text} (h : ∀ i, name ≠ bucketFile i) (files : Files) :
    openBuckets files name = files name := by
  rw [openBuckets]
  induction List.range numBuckets generalizing files with
  | nil => rfl
  | cons i is ih => rw [List.foldl_cons, ih, Function.update_of_ne (h i)]

theorem openBuckets_bucketFile {i : ℕ} (hi : i < numBuckets) (files : Files) :
    openBuckets files (bucketFile i) = [] := by
  have hloop : ∀ (is : List ℕ) (files : Files), i ∈ is ∨ files (bucketFile i) = [] →
      is.foldl (fun files i => Function.update files (bucketFile i) []) files (bucketFile i)
        = [] := by
    intro is
    induction is with
    | nil => exact fun files h => h.resolve_left List.not_mem_nil
    | cons j is ih =>
      intro files h
      rw [List.foldl_cons]
      apply ih
      by_cases hij : i = j
      · subst hij
        exact Or.inr (Function.update_self ..)
      · rw [Function.update_of_ne (bucketFile_injective.ne hij)]
        exact h.imp_left fun hmem => (List.mem_cons.mp hmem).resolve_left hij
  exact hloop _ files (Or.inl (List.mem_range.mpr hi))

/-- The words that belong to a bucket. -/
def bucketWords (hash : Text → ℕ) (words : List Text) (i : ℕ) : List Text :=
  words.filter fun ip => hash ip % numBuckets = i

/-- Writing the words appends to each bucket those that belong to it. -/
theorem foldl_writeIP (hash : Text → ℕ) (words : List Text) (files : Files) (i : ℕ) :
    words.foldl (writeIP hash) files (bucketFile i)
      = files (bucketFile i) ++ unlines (bucketWords hash words i) := by
  induction words generalizing files with
  | nil => exact (List.append_nil _).symm
  | cons ip words ih =>
    rw [List.foldl_cons, ih, writeIP]
    by_cases hi : hash ip % numBuckets = i
    · subst hi
      simp [unlines, bucketWords]
    · rw [Function.update_of_ne (bucketFile_injective.ne fun heq => hi heq.symm)]
      simp [hi, bucketWords]

/-- **Partitioning.**  Each bucket has the words of the log that belong to it. -/
theorem all_partitionFile (hash : Text → ℕ) {inputFile : Text}
    (hinput : ∀ i, inputFile ≠ bucketFile i) (files : Files) {i : ℕ} (hi : i < numBuckets) :
    wordReader.all (partitionFile hash inputFile files (bucketFile i))
      = bucketWords hash (wordReader.all (files inputFile)) i := by
  rw [partitionFile, foldl_writeIP, openBuckets_bucketFile hi, openBuckets_of_ne hinput,
    List.nil_append]
  exact wordReader_all_unlines fun ip hip => isWord_of_mem_all (List.mem_of_mem_filter hip)

/-! ## Counting -/

/-- The entries are the different words, each with the number of its occurrences. -/
structure Tallies (words : List Text) (freq : List Entry) : Prop where
  nodup : (freq.map Entry.ip).Nodup
  mem_iff : ∀ ip, ip ∈ freq.map Entry.ip ↔ ip ∈ words
  count_eq : ∀ e ∈ freq, e.count = words.count e.ip

theorem map_ip_countIP (freq : List Entry) (ip : Text) :
    (countIP freq ip).map Entry.ip
      = if ip ∈ freq.map Entry.ip then freq.map Entry.ip else freq.map Entry.ip ++ [ip] := by
  induction freq with
  | nil => simp [countIP]
  | cons e freq ih =>
    rw [countIP]
    by_cases he : e.ip = ip
    · simp [he]
    · have he' : ip ≠ e.ip := fun heq => he heq.symm
      rw [if_neg he, List.map_cons, ih, List.map_cons]
      by_cases hmem : ip ∈ freq.map Entry.ip
      · rw [if_pos hmem, if_pos (List.mem_cons_of_mem _ hmem)]
      · have hnot : ip ∉ e.ip :: freq.map Entry.ip := by
          rw [List.mem_cons]
          exact not_or.mpr ⟨he', hmem⟩
        rw [if_neg hmem, if_neg hnot, List.cons_append]

/-- An entry after counting a word is one of before, or that of the word, one higher. -/
theorem mem_countIP {freq : List Entry} (hnodup : (freq.map Entry.ip).Nodup) {ip : Text}
    {e : Entry} (he : e ∈ countIP freq ip) :
    (e ∈ freq ∧ e.ip ≠ ip) ∨ (e.ip = ip ∧ ∃ e₀ ∈ freq, e₀.ip = ip ∧ e.count = e₀.count + 1) ∨
      (e.ip = ip ∧ ip ∉ freq.map Entry.ip ∧ e.count = 1) := by
  induction freq with
  | nil =>
    obtain rfl := List.mem_singleton.mp he
    exact Or.inr (Or.inr ⟨rfl, List.not_mem_nil, rfl⟩)
  | cons e₁ freq ih =>
    obtain ⟨hhead, htail⟩ := List.nodup_cons.mp hnodup
    rw [countIP] at he
    split_ifs at he with h₁
    · rcases List.mem_cons.mp he with rfl | he
      · exact Or.inr (Or.inl ⟨rfl, e₁, List.mem_cons_self, h₁, rfl⟩)
      · refine Or.inl ⟨List.mem_cons_of_mem _ he, fun heq => hhead ?_⟩
        rw [h₁, ← heq]
        exact List.mem_map_of_mem he
    · rcases List.mem_cons.mp he with rfl | he
      · exact Or.inl ⟨List.mem_cons_self, h₁⟩
      · rcases ih htail he with ⟨hmem, hne⟩ | ⟨heq, e₀, hmem, hrest⟩ | ⟨heq, hmem, hcount⟩
        · exact Or.inl ⟨List.mem_cons_of_mem _ hmem, hne⟩
        · exact Or.inr (Or.inl ⟨heq, e₀, List.mem_cons_of_mem _ hmem, hrest⟩)
        · refine Or.inr (Or.inr ⟨heq, ?_, hcount⟩)
          rw [List.map_cons, List.mem_cons]
          exact not_or.mpr ⟨fun h => h₁ h.symm, hmem⟩

/-- **Counting the words of a bucket.** -/
theorem tallies_countAll (words : List Text) : Tallies words (countAll words) := by
  induction words using List.reverseRecOn with
  | nil => exact ⟨List.nodup_nil, fun _ => Iff.rfl, fun _ he => absurd he List.not_mem_nil⟩
  | append_singleton words ip ih =>
    rw [countAll, List.foldl_concat, ← countAll]
    refine ⟨?_, fun ip' => ?_, fun e he => ?_⟩
    · rw [map_ip_countIP]
      split_ifs with hmem
      · exact ih.nodup
      · exact List.nodup_append.mpr ⟨ih.nodup, List.nodup_singleton ip, fun a ha b hb heq => by
          rw [List.mem_singleton.mp hb] at heq
          exact hmem (heq ▸ ha)⟩
    · rw [map_ip_countIP]
      split_ifs with hmem
      · rw [ih.mem_iff, List.mem_append, List.mem_singleton]
        refine ⟨Or.inl, fun h => h.elim id ?_⟩
        rintro rfl
        exact (ih.mem_iff ip').mp hmem
      · rw [List.mem_append, ih.mem_iff, List.mem_append]
    · rw [List.count_append]
      rcases mem_countIP ih.nodup he with ⟨hmem, hne⟩ | ⟨rfl, e₀, hmem, hip, hcount⟩ |
        ⟨rfl, hmem, hcount⟩
      · rw [List.count_singleton, beq_false_of_ne hne.symm, ih.count_eq e hmem]
        rfl
      · rw [hcount, ih.count_eq e₀ hmem, hip, List.count_singleton_self]
      · rw [ih.mem_iff] at hmem
        rw [hcount, List.count_eq_zero_of_not_mem hmem, List.count_singleton_self]

/-! ## The entries that are offered -/

/-- The entries in the order in which they are offered to the queue. -/
def offered (hash : Text → ℕ) (order : ℕ → List Entry → List Entry) (words : List Text) :
    List Entry :=
  (List.range numBuckets).flatMap fun i => order i (countAll (bucketWords hash words i))

section Offered

variable (hash : Text → ℕ) {order : ℕ → List Entry → List Entry}
  (horder : ∀ i freq, (order i freq).Perm freq) (words : List Text)
include horder

theorem mem_map_order_iff (i : ℕ) (ip : Text) :
    ip ∈ (order i (countAll (bucketWords hash words i))).map Entry.ip
      ↔ ip ∈ words ∧ hash ip % numBuckets = i := by
  rw [((horder i _).map Entry.ip).mem_iff, (tallies_countAll _).mem_iff, bucketWords,
    List.mem_filter, decide_eq_true_iff]

theorem mem_map_offered_iff (ip : Text) :
    ip ∈ (offered hash order words).map Entry.ip ↔ ip ∈ words := by
  rw [offered, List.map_flatMap, List.mem_flatMap]
  constructor
  · rintro ⟨i, -, hip⟩
    exact ((mem_map_order_iff hash horder words i ip).mp hip).1
  · intro hip
    refine ⟨hash ip % numBuckets, List.mem_range.mpr (Nat.mod_lt _ (by decide)), ?_⟩
    exact (mem_map_order_iff hash horder words _ ip).mpr ⟨hip, rfl⟩

/-- No word is offered twice: the buckets have no word in common. -/
theorem nodup_offered : ((offered hash order words).map Entry.ip).Nodup := by
  rw [offered, List.map_flatMap, List.nodup_flatMap]
  constructor
  · intro i _
    exact ((horder i _).map Entry.ip).nodup_iff.mpr (tallies_countAll _).nodup
  · refine List.nodup_range.imp fun {i j} hij => ?_
    intro ip hi hj
    obtain ⟨-, hi⟩ := (mem_map_order_iff hash horder words i ip).mp hi
    obtain ⟨-, hj⟩ := (mem_map_order_iff hash horder words j ip).mp hj
    exact hij (hi.symm.trans hj)

theorem count_eq_of_mem_offered {e : Entry} (he : e ∈ offered hash order words) :
    e.count = words.count e.ip := by
  obtain ⟨i, -, he⟩ := List.mem_flatMap.mp he
  have hbucket := (mem_map_order_iff hash horder words i e.ip).mp (List.mem_map_of_mem he)
  rw [(tallies_countAll _).count_eq e ((horder i _).mem_iff.mp he)]
  exact List.count_filter (p := fun ip => decide (hash ip % numBuckets = i))
    (decide_eq_true hbucket.2)

theorem length_offered : (offered hash order words).length = words.toFinset.card := by
  have hperm : ((offered hash order words).map Entry.ip).Perm words.dedup := by
    rw [List.perm_ext_iff_of_nodup (nodup_offered hash horder words) words.nodup_dedup]
    intro ip
    rw [mem_map_offered_iff hash horder words, List.mem_dedup]
  rw [← List.length_map, hperm.length_eq, List.card_toFinset]

end Offered

/-! ## The queue -/

/-- The entry with the greater count ranks first. -/
def rank (e : Entry) : ℕᵒᵈ := OrderDual.toDual e.count

variable {P : PriorityQueue Compare} {K : ℕ}

theorem leads_offer {pq : P.Queue} {seen : Multiset Entry} (h : Leads rank K (P.elems pq) seen)
    (e : Entry) : Leads rank K (P.elems (offer P K pq e)) (e ::ₘ seen) := by
  have hle : (P.elems pq).card ≤ K := h.1.trans_le (min_le_left _ _)
  rw [offer, P.elems_push, Multiset.card_cons]
  split_ifs with hfull
  · have hne : P.top (P.push pq e) ≠ none := by
      rw [Ne, P.top_eq_none_iff, P.elems_push]
      exact Multiset.cons_ne_zero
    obtain ⟨w, hw⟩ := Option.ne_none_iff_exists'.mp hne
    refine h.exchange (by omega) (w := w) ?_ fun b hb => ?_
    · rw [← P.elems_push, P.elems_of_top hw]
    · rw [← P.elems_push] at hb
      exact not_lt.mp (P.not_below_of_top hw b hb)
  · rw [P.elems_push]
    exact h.add (by omega) e

theorem leads_foldl_offer (es : List Entry) :
    Leads rank K (P.elems (es.foldl (offer P K) P.empty)) es := by
  induction es using List.reverseRecOn with
  | nil =>
    rw [List.foldl_nil, P.elems_empty]
    exact leads_zero rank K
  | append_singleton es e ih =>
    have hseen : ((es ++ [e] : List Entry) : Multiset Entry) = e ::ₘ (es : Multiset Entry) :=
      Multiset.coe_eq_coe.mpr (List.perm_append_singleton e es)
    rw [List.foldl_concat, hseen]
    exact leads_offer ih e

/-! ## Result -/

/-- What is returned is what the offers of all buckets leave in the queue, in reverse. -/
theorem topKIPs_partitionFile (hash : Text → ℕ) (P : PriorityQueue Compare)
    (order : ℕ → List Entry → List Entry) (K : ℕ) (files : Files) {inputFile : Text}
    (hinput : ∀ i, inputFile ≠ bucketFile i) :
    topKIPs P order K (partitionFile hash inputFile files)
      = (P.drain ((offered hash order (wordReader.all (files inputFile))).foldl (offer P K)
          P.empty)).reverse := by
  have hbuckets : (offered hash order (wordReader.all (files inputFile))).foldl (offer P K) P.empty
      = (List.range numBuckets).foldl (fun pq i => (order i (countAll (wordReader.all
        (partitionFile hash inputFile files (bucketFile i))))).foldl (offer P K) pq) P.empty := by
    rw [offered, List.foldl_flatMap]
    refine List.foldl_ext _ _ _ fun pq i hi => ?_
    rw [all_partitionFile hash hinput files (List.mem_range.mp hi)]
  exact congrArg (fun q => (P.drain q).reverse) hbuckets.symm

/-- **The result leads what was offered**, in non-increasing order. -/
theorem leads_topKIPs (hash : Text → ℕ) (P : PriorityQueue Compare)
    (order : ℕ → List Entry → List Entry) (K : ℕ) (files : Files) {inputFile : Text}
    (hinput : ∀ i, inputFile ≠ bucketFile i) :
    Leads rank K (topKIPs P order K (partitionFile hash inputFile files) : List Entry)
        (offered hash order (wordReader.all (files inputFile))) ∧
      (topKIPs P order K (partitionFile hash inputFile files)).Pairwise
        fun a b => b.count ≤ a.count := by
  rw [topKIPs_partitionFile hash P order K files hinput]
  obtain ⟨helems, hsorted⟩ := P.drain_spec
    ((offered hash order (wordReader.all (files inputFile))).foldl (offer P K) P.empty)
  constructor
  · rw [Multiset.coe_reverse, helems]
    exact leads_foldl_offer _
  · rw [List.pairwise_reverse]
    exact hsorted.imp not_lt.mp

end TopIPs
