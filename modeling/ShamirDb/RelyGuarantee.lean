/-
# Programs over a shared state, one access at a time

A program is a tree of accesses to a shared state, each followed by what the program
does with the response.  A pool runs any number of programs: an event starts one or
lets one of them perform its next access, so that a list of events is one
interleaving and `Machine.run` ranges over all of them.

The second half is a rely/guarantee logic for such pools.  A `Discipline` says which
invariant every access keeps and, for each thread, what it may rely on the accesses
of the other threads to leave alone.  `Holds` is the weakest precondition of a
program under a discipline: between two accesses of the program the others may do
anything the thread relies on.  `holds_run` is the adequacy theorem: programs that
hold when they are started keep the invariant along every interleaving.
-/
import Mathlib.Tactic.Common
import ShamirDb.Machine

namespace Threads

open List

/-! ## Programs -/

/-- A program that accesses the shared state through `A`, an access `a` being answered
by a `B a`. -/
inductive Prog (A : Type) (B : A → Type) (α : Type) where
  | ret (x : α)
  | access (a : A) (k : B a → Prog A B α)

namespace Prog

variable {A : Type} {B : A → Type} {α β : Type}

def bind : Prog A B α → (α → Prog A B β) → Prog A B β
  | ret x, f => f x
  | access a k, f => access a fun b => (k b).bind f

instance : Monad (Prog A B) where
  pure := ret
  bind := bind

/-- The program that performs one access and returns its response. -/
def perform (a : A) : Prog A B (B a) := access a ret

/-- Runs `p` if the condition holds. -/
def when (c : Prop) [Decidable c] (p : Prog A B Unit) : Prog A B Unit := if c then p else ret ()

/-- Runs `f` on the elements of a list, first to last. -/
def forEach (f : β → Prog A B Unit) : List β → Prog A B Unit
  | [] => ret ()
  | x :: xs => (f x).bind fun _ => forEach f xs

/-- Runs `f` on the elements of a list, first to last, passing on an accumulator. -/
def foldM (f : α → β → Prog A B α) : α → List β → Prog A B α
  | x, [] => ret x
  | x, y :: ys => (f x y).bind fun x' => foldM f x' ys

/-- Programs form a monad. -/
theorem bind_assoc {γ : Type} (p : Prog A B α) (f : α → Prog A B β) (g : β → Prog A B γ) :
    (p.bind f).bind g = p.bind fun x => (f x).bind g := by
  induction p with
  | ret x => rfl
  | access a k ih =>
    show access a (fun b => ((k b).bind f).bind g) = access a fun b => (k b).bind fun x => (f x).bind g
    rw [funext ih]

/-- A loop over two lists is one loop after the other. -/
theorem foldM_append (f : α → β → Prog A B α) (x : α) (xs ys : List β) :
    foldM f x (xs ++ ys) = (foldM f x xs).bind fun x' => foldM f x' ys := by
  induction xs generalizing x with
  | nil => rfl
  | cons y xs ih =>
    rw [cons_append, foldM, foldM, bind_assoc]
    congr 1
    funext x'
    exact ih x'

/-! ### Accesses a program can make -/

/-- Every access the program can make meets `P`. -/
def All (P : A → Prop) : Prog A B α → Prop
  | ret _ => True
  | access a k => P a ∧ ∀ b, (k b).All P

namespace All

variable {P : A → Prop}

theorem pure (x : α) : All P (Pure.pure x : Prog A B α) := trivial

theorem perform {a : A} (h : P a) : All P (Prog.perform a : Prog A B (B a)) :=
  ⟨h, fun _ => trivial⟩

variable {p : Prog A B α} {f : α → Prog A B β} {xs : List β}

theorem bind (hp : p.All P) (hf : ∀ x, (f x).All P) : (p.bind f).All P := by
  induction p with
  | ret x => exact hf x
  | access a k ih => exact ⟨hp.1, fun b => ih b (hp.2 b)⟩

/-- Sequencing, as `do` writes it. -/
theorem seq (hp : p.All P) (hf : ∀ x, (f x).All P) : All P (p >>= f) := hp.bind hf

theorem mono {Q : A → Prop} (hp : p.All P) (h : ∀ a, P a → Q a) : p.All Q := by
  induction p with
  | ret x => trivial
  | access a k ih => exact ⟨h a hp.1, fun b => ih b (hp.2 b)⟩

end All

/-! ### Properties of programs -/

/-- A property of programs that holds of what is put together from programs with it. -/
structure Closed (P : ∀ {α : Type}, Prog A B α → Prop) : Prop where
  pure : ∀ {α : Type} (x : α), P (Pure.pure x : Prog A B α)
  seq : ∀ {α β : Type} {p : Prog A B α} {f : α → Prog A B β}, P p → (∀ x, P (f x)) → P (p >>= f)

namespace Closed

variable {P : ∀ {α : Type}, Prog A B α → Prop} (hP : Closed P)
include hP

theorem when {c : Prop} [Decidable c] {p : Prog A B Unit} (hp : c → P p) : P (Prog.when c p) := by
  unfold Prog.when
  split
  · exact hp ‹_›
  · exact hP.pure ()

theorem forEach {f : β → Prog A B Unit} (hf : ∀ x, P (f x)) (xs : List β) :
    P (Prog.forEach f xs) := by
  induction xs with
  | nil => exact hP.pure ()
  | cons x xs ih => exact hP.seq (hf x) fun _ => ih

theorem foldM {f : α → β → Prog A B α} (hf : ∀ x y, P (f x y)) (x : α) (ys : List β) :
    P (Prog.foldM f x ys) := by
  induction ys generalizing x with
  | nil => exact hP.pure x
  | cons y ys ih => exact hP.seq (hf x y) ih

/-- A program has the property if all accesses it can make have it. -/
theorem of_all {Q : A → Prop} (hQ : ∀ a, Q a → P (Prog.perform a)) {p : Prog A B α} (hp : p.All Q) :
    P p := by
  induction p with
  | ret x => exact hP.pure x
  | access a k ih => exact hP.seq (hQ a hp.1) fun b => ih b (hp.2 b)

end Closed

namespace All

theorem closed (Q : A → Prop) : Closed (A := A) (B := B) fun p => p.All Q := ⟨All.pure, All.seq⟩

variable {P : A → Prop} {xs : List β}

theorem when {c : Prop} [Decidable c] {p : Prog A B Unit} (hp : c → p.All P) : (Prog.when c p).All P :=
  (closed P).when hp

theorem forEach {f : β → Prog A B Unit} (h : ∀ x, (f x).All P) : (Prog.forEach f xs).All P :=
  (closed P).forEach h xs

theorem foldM {f : α → β → Prog A B α} (h : ∀ x y, (f x y).All P) (x : α) :
    (Prog.foldM f x xs).All P :=
  (closed P).foldM h x xs

end All

/-! ### A program alone -/

variable {σ ε : Type}

/-- Runs a program without interruption; the environment contributes `env 0` to its first
access, `env 1` to the next one, and so on.  The result comes with what is left of the
environment and the state reached. -/
def exec (serve : ε → σ → (a : A) → σ × B a) : Prog A B α → (Nat → ε) → σ → α × (Nat → ε) × σ
  | ret x, env, s => (x, env, s)
  | access a k, env, s =>
    let r := serve (env 0) s a
    (k r.2).exec serve (fun n => env (n + 1)) r.1

/-- What the environment contributes can be translated before the run. -/
theorem exec_comap {ε' : Type} (serve : ε → σ → (a : A) → σ × B a) (f : ε' → ε) (p : Prog A B α)
    (env : Nat → ε') (s : σ) :
    (p.exec serve (fun n => f (env n)) s).1 = (p.exec (fun e => serve (f e)) env s).1 := by
  induction p generalizing env s with
  | ret x => rfl
  | access a k ih => exact ih _ (fun n => env (n + 1)) _

/-- Every access of the program, run alone, is allowed in the state it is performed in. -/
def ExecMeets (serve : ε → σ → (a : A) → σ × B a) (allowed : A → σ → Prop) :
    Prog A B α → (Nat → ε) → σ → Prop
  | ret _, _, _ => True
  | access a k, env, s =>
    allowed a s ∧ (k (serve (env 0) s a).2).ExecMeets serve allowed (fun n => env (n + 1))
      (serve (env 0) s a).1

/-- No demand is made on the run. -/
theorem execMeets_true {serve : ε → σ → (a : A) → σ × B a} (p : Prog A B α) (env : Nat → ε) (s : σ) :
    p.ExecMeets serve (fun _ _ => True) env s := by
  induction p generalizing env s with
  | ret x => trivial
  | access a k ih => exact ⟨trivial, ih _ _ _⟩

instance decidableExecMeets (serve : ε → σ → (a : A) → σ × B a) (allowed : A → σ → Prop)
    [∀ a s, Decidable (allowed a s)] :
    ∀ (p : Prog A B α) (env : Nat → ε) (s : σ), Decidable (ExecMeets serve allowed p env s)
  | ret _, _, _ => isTrue trivial
  | access a k, env, s =>
    have := decidableExecMeets serve allowed (k (serve (env 0) s a).2) (fun n => env (n + 1))
      (serve (env 0) s a).1
    inferInstanceAs (Decidable (_ ∧ _))

end Prog

/-! ## Pools of threads -/

/-- A shared state and the programs that run on it, each with what is left of it. -/
structure Pool (σ A : Type) (B : A → Type) where
  shared : σ
  threads : List (Prog A B Unit)

/-- The scheduler starts a call, or lets thread `i` perform its next access; `e` is
what the environment contributes to the response. -/
inductive Event (Op ε : Type) where
  | call (op : Op)
  | exec (i : Nat) (e : ε)

section

variable {σ ε Op A : Type} {B : A → Type}

/-- One event of a pool: `serve i e s a` is the access `a` of thread `i`. -/
def step (serve : Nat → ε → σ → (a : A) → σ × B a) (program : Op → Prog A B Unit)
    (p : Pool σ A B) : Event Op ε → Pool σ A B
  | .call op => { p with threads := p.threads ++ [program op] }
  | .exec i e =>
    match p.threads[i]? with
    | some (.access a k) =>
      let r := serve i e p.shared a
      ⟨r.1, p.threads.set i (k r.2)⟩
    | _ => p

/-- The access performed by an event, if it performs one, is allowed in the state it is
performed in. -/
def Meets (allowed : A → σ → Prop) (p : Pool σ A B) : Event Op ε → Prop
  | .call _ => True
  | .exec i _ =>
    match p.threads[i]? with
    | some (.access a _) => allowed a p.shared
    | _ => True

instance (allowed : A → σ → Prop) [∀ a s, Decidable (allowed a s)] (p : Pool σ A B)
    (ev : Event Op ε) : Decidable (Meets allowed p ev) := by
  unfold Meets
  split
  · infer_instance
  · split <;> infer_instance

end

/-! ## The logic -/

/-- What the threads of a pool agree on.  `rely i s s'` is what thread `i` expects of
the accesses of the others; it composes, so that it also describes any number of them.
Only accesses that are `allowed` in their state are considered. -/
structure Discipline (σ ε A : Type) (B : A → Type) where
  serve : Nat → ε → σ → (a : A) → σ × B a
  allowed : A → σ → Prop
  inv : σ → Prop
  rely : Nat → σ → σ → Prop
  refl : ∀ i s, rely i s s
  trans : ∀ i s t u, rely i s t → rely i t u → rely i s u

namespace Discipline

variable {σ ε Op A : Type} {B : A → Type} {α β : Type} (D : Discipline σ ε A B)

/-- The access from `s` to `s'` made by thread `i` keeps the invariant and what the
other threads rely on. -/
def Keeps (i : Nat) (s s' : σ) : Prop := D.inv s' ∧ ∀ j, j ≠ i → D.rely j s s'

/-- **Weakest precondition** of a program of thread `i`: wherever the other threads
have taken the state, its next access keeps the discipline and the rest of it holds. -/
def Holds (i : Nat) : Prog A B α → (α → σ → Prop) → σ → Prop
  | .ret x, Q, s => Q x s
  | .access a k, Q, s =>
    ∀ s', D.rely i s s' → D.inv s' → D.allowed a s' → ∀ e,
      D.Keeps i s' (D.serve i e s' a).1 ∧
        Holds i (k (D.serve i e s' a).2) Q (D.serve i e s' a).1

variable {D} {i : Nat} {s s' : σ}

variable {serve : ε → σ → (a : A) → σ × B a} {p : Prog A B α} {allowed : A → σ → Prop}
  {Q : α → σ → Prop} {f : α → Prog A B β} {P : α → σ → Prop} {J : σ → Prop} {xs : List β}

theorem Holds.pure {x : α} (h : Q x s) : D.Holds i (Pure.pure x) Q s := h

section

variable {Q : β → σ → Prop} (hp : D.Holds i p P s) (hf : ∀ x t, P x t → D.Holds i (f x) Q t)
include hp hf

/-- Sequencing. -/
theorem Holds.bind : D.Holds i (p.bind f) Q s := by
  induction p generalizing s with
  | ret x => exact hf x s hp
  | access a k ih =>
    intro t ht hinv hallowed e
    obtain ⟨hkeeps, hrest⟩ := hp t ht hinv hallowed e
    exact ⟨hkeeps, ih _ hrest⟩

/-- Sequencing, as `do` writes it. -/
theorem Holds.seq : D.Holds i (p >>= f) Q s := hp.bind hf

end

variable {a : A}

/-- One access. -/
theorem Holds.perform {Q : B a → σ → Prop}
    (h : ∀ t, D.rely i s t → D.inv t → D.allowed a t → ∀ e,
      D.Keeps i t (D.serve i e t a).1 ∧ Q (D.serve i e t a).2 (D.serve i e t a).1) :
    D.Holds i (Prog.perform a) Q s := h

theorem Keeps.refl (h : D.inv s) : D.Keeps i s s := ⟨h, fun j _ => D.refl j s⟩

/-- An access that leaves the state as it is. -/
theorem Holds.read {Q : B a → σ → Prop} (hserve : ∀ t e, (D.serve i e t a).1 = t)
    (h : ∀ t, D.rely i s t → D.inv t → D.allowed a t → ∀ e, Q (D.serve i e t a).2 t) :
    D.Holds i (Prog.perform a) Q s := by
  intro t ht hinv hallowed e
  rw [hserve t e]
  exact ⟨Keeps.refl hinv, h t ht hinv hallowed e⟩

/-- Run from `s`, the program answers `r` and leaves the state as it is. -/
abbrev Answers (D : Discipline σ ε A B) (p : Prog A B α) (r : α) (s : σ) : Prop :=
  D.Holds 0 p (fun x t => s = t ∧ x = r) s

/-- A read, and then the rest. -/
theorem Answers.seq {r : α} {Q : β → σ → Prop} (hp : D.Answers p r s) (hf : D.Holds 0 (f r) Q s) :
    D.Holds 0 (p >>= f) Q s := by
  refine Holds.seq hp ?_
  rintro _ _ ⟨rfl, rfl⟩
  exact hf

theorem Holds.when {c : Prop} [Decidable c] {p : Prog A B Unit} {Q : Unit → σ → Prop}
    (hp : c → D.Holds i p Q s) (hskip : ¬ c → Q () s) : D.Holds i (Prog.when c p) Q s := by
  unfold Prog.when
  split
  · exact hp ‹_›
  · exact hskip ‹_›

/-- Weakening the postcondition. -/
theorem Holds.imp {P Q : α → σ → Prop} (hp : D.Holds i p P s) (h : ∀ x t, P x t → Q x t) :
    D.Holds i p Q s := by
  induction p generalizing s with
  | ret x => exact h x s hp
  | access a k ih =>
    intro t ht hinv hallowed e
    obtain ⟨hkeeps, hrest⟩ := hp t ht hinv hallowed e
    exact ⟨hkeeps, ih _ hrest⟩

/-- A program whose postcondition the thread can rely on holds wherever the others take
the state. -/
theorem Holds.stable (hQ : ∀ x t u, Q x t → D.rely i t u → Q x u) (hp : D.Holds i p Q s)
    (h : D.rely i s s') : D.Holds i p Q s' := by
  cases p with
  | ret x => exact hQ x s s' hp h
  | access a k => exact fun t ht => hp t (D.trans i s s' t h ht)

/-- A program whose accesses all keep the discipline and a fact the thread can rely on. -/
theorem Holds.of_all {P : A → Prop} (hp : p.All P) (hstable : ∀ t u, J t → D.rely i t u → J u)
    (hkeeps : ∀ a t e, P a → D.inv t → D.allowed a t → J t →
      D.Keeps i t (D.serve i e t a).1 ∧ J (D.serve i e t a).1) (h : J s) :
    D.Holds i p (fun _ => J) s := by
  induction p generalizing s with
  | ret x => exact h
  | access a k ih =>
    intro t ht hinv hallowed e
    obtain ⟨hkeep, hJ⟩ := hkeeps a t e hp.1 hinv hallowed (hstable s t h ht)
    exact ⟨hkeep, ih _ (hp.2 _) hJ⟩

variable {f : β → Prog A B Unit}

/-- **Loop rule**: `J` holds of the elements still to be visited. -/
theorem Holds.forEach {J : List β → σ → Prop}
    (hbody : ∀ x xs t, J (x :: xs) t → D.Holds i (f x) (fun _ u => J xs u) t) (h : J xs s) :
    D.Holds i (Prog.forEach f xs) (fun _ u => J [] u) s := by
  induction xs generalizing s with
  | nil => exact h
  | cons x xs ih => exact (hbody x xs s h).bind fun _ t ht => ih ht

/-- A loop whose rounds, each over an element of the list, all keep `F`. -/
theorem Holds.forEach_mem {F : σ → Prop}
    (hbody : ∀ x ∈ xs, ∀ t, F t → D.Holds i (f x) (fun _ => F) t) (h : F s) :
    D.Holds i (Prog.forEach f xs) (fun _ => F) s := by
  induction xs generalizing s with
  | nil => exact h
  | cons x xs ih =>
    exact (hbody x mem_cons_self s h).bind fun _ t ht =>
      ih (fun y hy => hbody y (mem_cons_of_mem _ hy)) ht

/-! ## Adequacy -/

/-- Every thread's remaining program holds, and a thread that has not been started is
`fresh`. -/
structure Sound (D : Discipline σ ε A B) (fresh : Nat → σ → Prop) (p : Pool σ A B) : Prop where
  inv : D.inv p.shared
  threads : ∀ i prog, p.threads[i]? = some prog → D.Holds i prog (fun _ _ => True) p.shared
  fresh : ∀ i, p.threads.length ≤ i → fresh i p.shared

variable {fresh : Nat → σ → Prop} {program : Op → Prog A B Unit}

/-- A thread begins. -/
theorem Sound.call {p : Pool σ A B} (h : D.Sound fresh p) (op : Op)
    (hstart : D.Holds p.threads.length (program op) (fun _ _ => True) p.shared) :
    D.Sound fresh (step D.serve program p (.call (ε := ε) op)) where
  inv := h.inv
  threads := by
    intro i prog hi
    change (p.threads ++ [program op])[i]? = some prog at hi
    rcases Nat.lt_trichotomy i p.threads.length with hlt | heq | hgt
    · rw [getElem?_append_left hlt] at hi
      exact h.threads i prog hi
    · subst heq
      rw [getElem?_concat_length] at hi
      exact Option.some.inj hi ▸ hstart
    · rw [getElem?_eq_none (by simp only [length_append, length_singleton]; omega)] at hi
      simp at hi
  fresh := by
    intro i hi
    refine h.fresh i ?_
    change (p.threads ++ [program op]).length ≤ i at hi
    rw [length_append] at hi
    omega

/-- A thread takes a step. -/
theorem Sound.exec {p : Pool σ A B} (h : D.Sound fresh p)
    (hfresh : ∀ i s s', fresh i s → D.rely i s s' → fresh i s') (i : Nat) (e : ε)
    (hmeets : Meets D.allowed p (.exec i e : Event Op ε)) :
    D.Sound fresh (step D.serve program p (.exec i e)) := by
  rcases hi : p.threads[i]? with _ | (_ | ⟨a, k⟩)
  · simpa only [step, hi] using h
  · simpa only [step, hi] using h
  simp only [Meets, hi] at hmeets
  simp only [step, hi]
  obtain ⟨hkeeps, hrest⟩ := h.threads i _ hi p.shared (D.refl i _) h.inv hmeets e
  have hlt : i < p.threads.length := (List.getElem?_eq_some_iff.1 hi).1
  refine ⟨hkeeps.1, ?_, ?_⟩
  · intro j prog hj
    by_cases hji : i = j
    · subst hji
      rw [getElem?_set_self hlt] at hj
      exact Option.some.inj hj ▸ hrest
    · rw [getElem?_set_ne hji] at hj
      exact (h.threads j prog hj).stable (fun _ _ _ _ _ => trivial)
        (hkeeps.2 j (fun hne => hji hne.symm))
  · intro j hj
    rw [length_set] at hj
    exact hfresh j _ _ (h.fresh j hj) (hkeeps.2 j (by omega))

/-- **Adequacy.**  If every call holds when a fresh thread starts it, then every
interleaving whose accesses are all allowed keeps the invariant. -/
theorem holds_run (hfresh : ∀ i s s', fresh i s → D.rely i s s' → fresh i s')
    (hstart : ∀ op i s, D.inv s → fresh i s → D.Holds i (program op) (fun _ _ => True) s)
    {p : Pool σ A B} (h : D.Sound fresh p) {es : List (Event Op ε)}
    (hes : Machine.Along (step D.serve program) (Meets D.allowed) p es) :
    D.Sound fresh (Machine.run (step D.serve program) p es) := by
  refine Machine.along_invariant (I := D.Sound fresh) ?_ h hes
  intro q ev hq hmeets
  cases ev with
  | call op => exact hq.call op (hstart op _ _ hq.inv (hq.fresh _ (Nat.le_refl _)))
  | exec i e => exact hq.exec hfresh i e hmeets

/-! ## A thread alone -/

/-- The discipline of a single thread: nobody interferes with thread 0. -/
def alone (serve : ε → σ → (a : A) → σ × B a) (allowed : A → σ → Prop) : Discipline σ ε A B where
  serve := fun _ => serve
  allowed := allowed
  inv := fun _ => True
  rely := fun i s s' => i = 0 → s' = s
  refl := fun _ _ _ => rfl
  trans := fun _ _ _ _ h h' hi => (h' hi).trans (h hi)

theorem alone_keeps (s s' : σ) :
    (alone serve allowed).Keeps 0 s s' := ⟨trivial, fun _ hj hj0 => absurd hj0 hj⟩

theorem Holds.alone_perform {Q : B a → σ → Prop}
    (h : allowed a s → ∀ e, Q (serve e s a).2 (serve e s a).1) :
    (alone serve allowed).Holds 0 (Prog.perform a) Q s := by
  intro t ht _ hallowed e
  obtain rfl := ht rfl
  exact ⟨alone_keeps _ _, h hallowed e⟩

/-- One access, then the rest from the state it leads to. -/
theorem Holds.step {f : B a → Prog A B α}
    (h : ∀ e, (alone serve allowed).Holds 0 (f (serve e s a).2) Q (serve e s a).1) :
    (alone serve allowed).Holds 0 (Prog.perform a >>= f) Q s := by
  intro t ht _ _ e
  obtain rfl := ht rfl
  exact ⟨alone_keeps _ _, h e⟩

/-- An access that is answered by `r` and changes nothing, then the rest. -/
theorem Holds.ask {f : B a → Prog A B α} {r : B a} (ha : ∀ e, serve e s a = (s, r))
    (hf : (alone serve allowed).Holds 0 (f r) Q s) :
    (alone serve allowed).Holds 0 (Prog.perform a >>= f) Q s := by
  refine Holds.step fun e => ?_
  rw [ha e]
  exact hf

/-- A program run alone whose accesses all keep `J`. -/
theorem Holds.alone_all {P : A → Prop} (hp : p.All P)
    (hkeeps : ∀ a t e, P a → J t → J (serve e t a).1) (h : J s) :
    (alone serve allowed).Holds 0 p (fun _ => J) s :=
  Holds.of_all hp (fun _ _ hJ hrely => hrely rfl ▸ hJ)
    (fun a t e ha _ _ hJ => ⟨alone_keeps _ _, hkeeps a t e ha hJ⟩) h

/-- What a program guarantees when it is run alone. -/
theorem Holds.exec (h : (alone serve allowed).Holds 0 p Q s) {env : Nat → ε}
    (hmeets : p.ExecMeets serve allowed env s) :
    Q (p.exec serve env s).1 (p.exec serve env s).2.2 := by
  induction p generalizing s env with
  | ret x => exact h
  | access a k ih => exact ih _ (h s (fun _ => rfl) trivial hmeets.1 (env 0)).2 hmeets.2

end Discipline

end Threads
