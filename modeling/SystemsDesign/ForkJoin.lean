/-
# Fork-join programs on a shared memory

A small language: a program reads and writes cells of a shared memory, and forks into two threads
that it joins before it goes on.  Local variables are those of the host language, since what follows
a read may depend on what has been read.  `Step` is one access of one of the running threads, so a
run is an interleaving of them.

The logic is that of disjoint concurrency.  `Ensures F p Q m` says that `p`, started on `m`,
accesses only cells of `F` and ends with `Q`; a fork has to give its two threads disjoint parts of
`F`.

* `Ensures.reachable` is soundness: it holds of what is left of the program in every state of every
  interleaving, and nothing outside of `F` is changed;
* `Ensures.touches` says that every access that a thread is about to make is in `F`, and
  `Ensures.not_races` that no two threads are about to access the same cell;
* `exists_step` and `no_infinite_run` say that every interleaving comes to the end of the program.
-/
import SystemsDesign.TransitionSystem

namespace ForkJoin

open TransitionSystem

/-! ## Programs -/

/-- Programs over a memory with cells `α` and values `V`. -/
inductive Prog (α V : Type*) where
  | done
  | read (a : α) (next : V → Prog α V)
  | write (a : α) (v : V) (next : Prog α V)
  | fork (left right next : Prog α V)

variable {α V : Type*}

/-- One program after the other. -/
def Prog.seq : Prog α V → Prog α V → Prog α V
  | done, q => q
  | read a next, q => read a fun v => (next v).seq q
  | write a v next, q => write a v (next.seq q)
  | fork left right next, q => fork left right (next.seq q)

/-- The memory and what is left of the program. -/
abbrev Config (α V : Type*) := (α → V) × Prog α V

variable [DecidableEq α]

/-- One access of one thread, or the join of two threads that are done. -/
inductive Step : Config α V → Config α V → Prop where
  | read (m : α → V) (a : α) (next : V → Prog α V) : Step (m, .read a next) (m, next (m a))
  | write (m : α → V) (a : α) (v : V) (next : Prog α V) :
      Step (m, .write a v next) (Function.update m a v, next)
  | left {m m' : α → V} {p p' : Prog α V} (q next : Prog α V) (h : Step (m, p) (m', p')) :
      Step (m, .fork p q next) (m', .fork p' q next)
  | right {m m' : α → V} {q q' : Prog α V} (p next : Prog α V) (h : Step (m, q) (m', q')) :
      Step (m, .fork p q next) (m', .fork p q' next)
  | join (m : α → V) (next : Prog α V) : Step (m, .fork .done .done next) (m, next)

/-- Some thread is about to access the cell. -/
inductive Touches : Prog α V → α → Prop where
  | read (a : α) (next : V → Prog α V) : Touches (.read a next) a
  | write (a : α) (v : V) (next : Prog α V) : Touches (.write a v next) a
  | left {p : Prog α V} {a : α} (q next : Prog α V) (h : Touches p a) : Touches (.fork p q next) a
  | right {q : Prog α V} {a : α} (p next : Prog α V) (h : Touches q a) : Touches (.fork p q next) a

/-- Two threads that run at the same time are about to access the cell. -/
inductive Races : Prog α V → α → Prop where
  | here {p q : Prog α V} {a : α} (next : Prog α V) (hp : Touches p a) (hq : Touches q a) :
      Races (.fork p q next) a
  | left {p : Prog α V} {a : α} (q next : Prog α V) (h : Races p a) : Races (.fork p q next) a
  | right {q : Prog α V} {a : α} (p next : Prog α V) (h : Races q a) : Races (.fork p q next) a

/-! ## Runs end -/

theorem exists_step (m : α → V) (p : Prog α V) : p = .done ∨ ∃ c, Step (m, p) c := by
  induction p with
  | done => exact .inl rfl
  | read a next => exact .inr ⟨_, .read m a next⟩
  | write a v next => exact .inr ⟨_, .write m a v next⟩
  | fork p q next hp hq =>
    right
    rcases hp with rfl | ⟨c, hc⟩
    · rcases hq with rfl | ⟨c, hc⟩
      · exact ⟨_, .join m next⟩
      · exact ⟨_, .right _ next hc⟩
    · exact ⟨_, .left q next hc⟩

/-- The program `p` is followed by `p'` in some step. -/
def Follows (p' p : Prog α V) : Prop := ∃ m m', Step (m, p) (m', p')

/-- What follows a fork: one of its threads has gone on, or both are done. -/
theorem follows_fork {p q next r : Prog α V} (h : Follows r (.fork p q next)) :
    (∃ p', Follows p' p ∧ r = .fork p' q next) ∨ (∃ q', Follows q' q ∧ r = .fork p q' next) ∨
      r = next := by
  obtain ⟨m, m', hs⟩ := h
  cases hs with
  | left q next hp => exact .inl ⟨_, ⟨m, m', hp⟩, rfl⟩
  | right p next hq => exact .inr (.inl ⟨_, ⟨m, m', hq⟩, rfl⟩)
  | join => exact .inr (.inr rfl)

/-- **Programs come to an end**, whatever the memory is and the other threads do to it. -/
theorem acc_follows (p : Prog α V) : Acc Follows p := by
  induction p with
  | done =>
    refine ⟨_, fun r hr => ?_⟩
    obtain ⟨m, m', hs⟩ := hr
    cases hs
  | read a next ih =>
    refine ⟨_, fun r hr => ?_⟩
    obtain ⟨m, m', hs⟩ := hr
    cases hs
    exact ih _
  | write a v next ih =>
    refine ⟨_, fun r hr => ?_⟩
    obtain ⟨m, m', hs⟩ := hr
    cases hs
    exact ih
  | fork p q next hp hq hnext =>
    -- in each step one of the two threads comes closer to its end
    induction hp generalizing q with
    | intro p _ ihp =>
      induction hq with
      | intro q hq ihq =>
        refine ⟨_, fun r hr => ?_⟩
        rcases follows_fork hr with ⟨p', hp', rfl⟩ | ⟨q', hq', rfl⟩ | rfl
        · exact ihp p' hp' q ⟨q, hq⟩
        · exact ihq q' hq'
        · exact hnext

theorem no_infinite_run (run : ℕ → Config α V) : ¬ ∀ i, Step (run i) (run (i + 1)) := by
  intro hrun
  have hacc : ∀ p : Prog α V, Acc Follows p → ∀ i, (run i).2 ≠ p := by
    intro p hp
    induction hp with
    | intro p _ ih =>
      rintro i rfl
      exact ih _ ⟨_, _, hrun i⟩ (i + 1) rfl
  exact hacc _ (acc_follows (run 0).2) 0 rfl

/-! ## The logic -/

/-- The memories agree on some cells. -/
def Agree (F : Set α) (m m' : α → V) : Prop := ∀ a ∈ F, m a = m' a

/-- The memories agree on all other cells. -/
def AgreeOff (F : Set α) (m m' : α → V) : Prop := ∀ a ∉ F, m a = m' a

/-- The property depends on some cells only. -/
def Local (F : Set α) (Q : (α → V) → Prop) : Prop := ∀ m m', Agree F m m' → Q m → Q m'

/-- The program accesses only cells of `F` and ends with `Q`.  The two threads of a fork have
disjoint parts of `F`, and what the program goes on from is what they ensure on their parts. -/
def Ensures (F : Set α) : Prog α V → ((α → V) → Prop) → (α → V) → Prop
  | .done, Q, m => Q m
  | .read a next, Q, m => a ∈ F ∧ Ensures F (next (m a)) Q m
  | .write a v next, Q, m => a ∈ F ∧ Ensures F next Q (Function.update m a v)
  | .fork p q next, Q, m => ∃ F₁ F₂ : Set α, F₁ ⊆ F ∧ F₂ ⊆ F ∧ Disjoint F₁ F₂ ∧
      ∃ Q₁ Q₂ : (α → V) → Prop, Local F₁ Q₁ ∧ Local F₂ Q₂ ∧
        Ensures F₁ p Q₁ m ∧ Ensures F₂ q Q₂ m ∧
        ∀ m', AgreeOff (F₁ ∪ F₂) m' m → Q₁ m' → Q₂ m' → Ensures F next Q m'

variable {F F' : Set α} {p p' q : Prog α V} {Q : (α → V) → Prop} {m m' : α → V} {a : α}

/-- **Sequence.** -/
theorem Ensures.seq (h : Ensures F p (fun m' => Ensures F q Q m') m) :
    Ensures F (p.seq q) Q m := by
  induction p generalizing m with
  | done => exact h
  | read a next ih => exact ⟨h.1, ih _ h.2⟩
  | write a v next ih => exact ⟨h.1, ih h.2⟩
  | fork p₁ p₂ next _ _ ih =>
    obtain ⟨F₁, F₂, h₁, h₂, hdisj, Q₁, Q₂, hQ₁, hQ₂, hp, hq, hnext⟩ := h
    exact ⟨F₁, F₂, h₁, h₂, hdisj, Q₁, Q₂, hQ₁, hQ₂, hp, hq,
      fun m' hm' hm₁ hm₂ => ih (hnext m' hm' hm₁ hm₂)⟩

/-- **Locality.**  What a program does depends on the cells it may access. -/
theorem Ensures.congr (hQ : Local F Q) (h : Ensures F p Q m) (hm : Agree F m m') :
    Ensures F p Q m' := by
  classical
  induction p generalizing F Q m m' with
  | done => exact hQ m m' hm h
  | read a next ih =>
    obtain ⟨ha, hnext⟩ := h
    rw [hm a ha] at hnext
    exact ⟨ha, ih _ hQ hnext hm⟩
  | write a v next ih =>
    obtain ⟨ha, hnext⟩ := h
    refine ⟨ha, ih hQ hnext fun b hb => ?_⟩
    by_cases hba : b = a
    · rw [hba, Function.update_self, Function.update_self]
    · rw [Function.update_of_ne hba, Function.update_of_ne hba, hm b hb]
  | fork p q next ihp ihq ih =>
    obtain ⟨F₁, F₂, h₁, h₂, hdisj, Q₁, Q₂, hQ₁, hQ₂, hp, hq, hnext⟩ := h
    refine ⟨F₁, F₂, h₁, h₂, hdisj, Q₁, Q₂, hQ₁, hQ₂, ihp hQ₁ hp fun b hb => hm b (h₁ hb),
      ihq hQ₂ hq fun b hb => hm b (h₂ hb), fun m'' hoff hm₁ hm₂ => ?_⟩
    -- the memory that the threads lead to, with the other cells as `m` has them
    have hagree : Agree F (F.piecewise m'' m) m'' := fun b hb => Set.piecewise_eq_of_mem F m'' m hb
    refine ih hQ (hnext (F.piecewise m'' m) (fun b hb => ?_) ?_ ?_) hagree
    · by_cases hbF : b ∈ F
      · rw [Set.piecewise_eq_of_mem F m'' m hbF, hoff b hb, hm b hbF]
      · rw [Set.piecewise_eq_of_notMem F m'' m hbF]
    · exact hQ₁ m'' _ (fun b hb => (hagree b (h₁ hb)).symm) hm₁
    · exact hQ₂ m'' _ (fun b hb => (hagree b (h₂ hb)).symm) hm₂

omit [DecidableEq α] in
theorem agree_of_agreeOff (hdisj : Disjoint F F') (h : AgreeOff F m' m) : Agree F' m m' := by
  intro a ha
  exact (h a fun haF => Set.disjoint_left.mp hdisj haF ha).symm

/-- **One step** keeps what the program ensures, and changes nothing outside of `F`. -/
theorem Ensures.step {c c' : Config α V} (hs : Step c c') (h : Ensures F c.2 Q c.1) :
    Ensures F c'.2 Q c'.1 ∧ AgreeOff F c'.1 c.1 := by
  induction hs generalizing F Q with
  | read m a next => exact ⟨h.2, fun b _ => rfl⟩
  | write m a v next =>
    refine ⟨h.2, fun b hb => ?_⟩
    have hne : b ≠ a := by
      rintro rfl
      exact hb h.1
    exact Function.update_of_ne hne v m
  | left q next _ ih =>
    obtain ⟨F₁, F₂, h₁, h₂, hdisj, Q₁, Q₂, hQ₁, hQ₂, hp, hq, hnext⟩ := h
    obtain ⟨hp', hoff⟩ := ih hp
    refine ⟨⟨F₁, F₂, h₁, h₂, hdisj, Q₁, Q₂, hQ₁, hQ₂, hp',
      hq.congr hQ₂ (agree_of_agreeOff hdisj hoff), fun m'' hm'' => hnext m'' fun b hb => ?_⟩,
      fun b hb => hoff b fun hbF => hb (h₁ hbF)⟩
    exact (hm'' b hb).trans (hoff b fun hbF => hb (.inl hbF))
  | right p next _ ih =>
    obtain ⟨F₁, F₂, h₁, h₂, hdisj, Q₁, Q₂, hQ₁, hQ₂, hp, hq, hnext⟩ := h
    obtain ⟨hq', hoff⟩ := ih hq
    refine ⟨⟨F₁, F₂, h₁, h₂, hdisj, Q₁, Q₂, hQ₁, hQ₂,
      hp.congr hQ₁ (agree_of_agreeOff hdisj.symm hoff), hq', fun m'' hm'' => hnext m''
        fun b hb => ?_⟩, fun b hb => hoff b fun hbF => hb (h₂ hbF)⟩
    exact (hm'' b hb).trans (hoff b fun hbF => hb (.inr hbF))
  | join m next =>
    obtain ⟨F₁, F₂, -, -, -, Q₁, Q₂, -, -, hp, hq, hnext⟩ := h
    exact ⟨hnext m (fun b _ => rfl) hp hq, fun b _ => rfl⟩

/-- **Soundness.**  In every state of every interleaving, what is left of the program ensures what
the program did, and nothing outside of `F` has changed. -/
theorem Ensures.reachable (h : Ensures F p Q m) (hrun : Reachable Step (m, p) (m', p')) :
    Ensures F p' Q m' ∧ AgreeOff F m' m := by
  have hstep : ∀ c c' : Config α V, Ensures F c.2 Q c.1 ∧ AgreeOff F c.1 m → Step c c' →
      Ensures F c'.2 Q c'.1 ∧ AgreeOff F c'.1 m := by
    rintro c c' ⟨hc, hoff⟩ hs
    obtain ⟨hc', hoff'⟩ := hc.step hs
    exact ⟨hc', fun b hb => (hoff' b hb).trans (hoff b hb)⟩
  exact @Reachable.invariant _ Step (fun c => Ensures F c.2 Q c.1 ∧ AgreeOff F c.1 m) _ _ hstep
    ⟨h, fun b _ => rfl⟩ hrun

theorem Ensures.touches (h : Ensures F p Q m) (ha : Touches p a) : a ∈ F := by
  induction ha generalizing F Q m with
  | read a next => exact h.1
  | write a v next => exact h.1
  | left q next _ ih =>
    obtain ⟨F₁, F₂, h₁, -, -, Q₁, Q₂, -, -, hp, -⟩ := h
    exact h₁ (ih hp)
  | right p next _ ih =>
    obtain ⟨F₁, F₂, -, h₂, -, Q₁, Q₂, -, -, -, hq, -⟩ := h
    exact h₂ (ih hq)

theorem Ensures.not_races (h : Ensures F p Q m) : ¬ Races p a := by
  intro hraces
  induction hraces generalizing F Q m with
  | here next hp hq =>
    obtain ⟨F₁, F₂, -, -, hdisj, Q₁, Q₂, -, -, hleft, hright, -⟩ := h
    exact Set.disjoint_left.mp hdisj (hleft.touches hp) (hright.touches hq)
  | left q next _ ih =>
    obtain ⟨F₁, F₂, -, -, -, Q₁, Q₂, -, -, hp, -⟩ := h
    exact ih hp
  | right p next _ ih =>
    obtain ⟨F₁, F₂, -, -, -, Q₁, Q₂, -, -, -, hq, -⟩ := h
    exact ih hq

end ForkJoin
