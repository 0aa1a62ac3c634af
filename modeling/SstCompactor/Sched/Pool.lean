import Mathlib.Data.List.Basic
import Mathlib.Algebra.BigOperators.Group.List.Basic
import Mathlib.Algebra.GroupWithZero.Nat

/-!
A pool of tasks. A program spawns one task for each of its inputs, then awaits them in the order
of the inputs and stops at the first that fails. The tasks run on a bounded number of threads,
one step at a time, in any order.
-/

set_option autoImplicit false

namespace Pool

/-- `start` and `step` are what a task does; a step goes on or ends the task with a result.
`post` is what awaiting the task makes of its result. -/
structure Program (I M R E O : Type) where
  start : I → M
  step : M → M ⊕ R
  post : R → Except E O

inductive Slot (M R : Type) where
  | queued (m : M)
  | running (m : M)
  | finished (r : R)

def Slot.isRunning {M R : Type} : Slot M R → Bool
  | .running _ => true
  | _ => false

structure State (I M R E O : Type) where
  pending : List I
  slots : List (Slot M R)
  taken : List O
  result : Option (Except E (List O))

def State.init {I M R E O : Type} (inputs : List I) : State I M R E O := ⟨inputs,[],[],none⟩

section
variable {I M R E O : Type} (P : Program I M R E O) (threads : Nat)

/-- One step of the program or of one task. A task that was spawned stays until a thread is free;
it runs on also after the program has returned. -/
inductive Step : State I M R E O → State I M R E O → Prop where
  | spawn {i : I} {pending : List I} {slots : List (Slot M R)} {taken : List O}
      {result : Option (Except E (List O))} :
      Step ⟨i :: pending,slots,taken,result⟩
        ⟨pending,slots ++ [.queued (P.start i)],taken,result⟩
  | begin {pending : List I} {before after : List (Slot M R)} {m : M} {taken : List O}
      {result : Option (Except E (List O))} :
      (before ++ .queued m :: after).countP Slot.isRunning < threads →
      Step ⟨pending,before ++ .queued m :: after,taken,result⟩
        ⟨pending,before ++ .running m :: after,taken,result⟩
  | work {pending : List I} {before after : List (Slot M R)} {m m' : M} {taken : List O}
      {result : Option (Except E (List O))} :
      P.step m = .inl m' →
      Step ⟨pending,before ++ .running m :: after,taken,result⟩
        ⟨pending,before ++ .running m' :: after,taken,result⟩
  | finish {pending : List I} {before after : List (Slot M R)} {m : M} {r : R} {taken : List O}
      {result : Option (Except E (List O))} :
      P.step m = .inr r →
      Step ⟨pending,before ++ .running m :: after,taken,result⟩
        ⟨pending,before ++ .finished r :: after,taken,result⟩
  | await {slots : List (Slot M R)} {r : R} {o : O} {taken : List O} :
      slots[taken.length]? = some (.finished r) → P.post r = .ok o →
      Step ⟨[],slots,taken,none⟩ ⟨[],slots,taken ++ [o],none⟩
  | fail {slots : List (Slot M R)} {r : R} {e : E} {taken : List O} :
      slots[taken.length]? = some (.finished r) → P.post r = .error e →
      Step ⟨[],slots,taken,none⟩ ⟨[],slots,taken,some (.error e)⟩
  | ret {slots : List (Slot M R)} {taken : List O} :
      taken.length = slots.length →
      Step ⟨[],slots,taken,none⟩ ⟨[],slots,taken,some (.ok taken)⟩

inductive Run (s : State I M R E O) : Nat → State I M R E O → Prop where
  | refl : Run s 0 s
  | tail {k : Nat} {t u : State I M R E O} : Run s k t → Step P threads t u → Run s (k+1) u

inductive Ends : M → Nat → R → Prop where
  | last {m : M} {r : R} : P.step m = .inr r → Ends m 1 r
  | next {m m' : M} {n : Nat} {r : R} : P.step m = .inl m' → Ends m' n r → Ends m (n+1) r

variable (steps : I → Nat) (value : I → R)

/-- What a slot may hold for its input, and the steps its task still has to do. -/
inductive Serves (i : I) : Slot M R → Nat → Prop where
  | queued : Ends P (P.start i) (steps i) (value i) → Serves i (.queued (P.start i)) (steps i+1)
  | running {m : M} {n : Nat} : Ends P m n (value i) → Serves i (.running m) n
  | finished : Serves i (.finished (value i)) 0

inductive ServeAll : List (Slot M R) → List I → Nat → Prop where
  | nil : ServeAll [] [] 0
  | cons {slot : Slot M R} {slots : List (Slot M R)} {i : I} {is : List I} {c n : Nat} :
      Serves P steps value i slot c → ServeAll slots is n → ServeAll (slot :: slots) (i :: is) (c+n)

variable {P steps value}

theorem Serves.begin {i : I} {m : M} {d : Nat} (h : Serves P steps value i (.queued m) d) :
    ∃ d' < d, Serves P steps value i (.running m) d' := by
  cases h with
  | queued he => exact ⟨_,Nat.lt_succ_self _,.running he⟩

theorem Serves.work {i : I} {m m' : M} {d : Nat} (hm : P.step m = .inl m')
    (h : Serves P steps value i (.running m) d) :
    ∃ d' < d, Serves P steps value i (.running m') d' := by
  cases h with
  | running he =>
    cases he with
    | last hlast => cases hm.symm.trans hlast
    | next hnext he =>
      cases hm.symm.trans hnext
      exact ⟨_,Nat.lt_succ_self _,.running he⟩

theorem Serves.finish {i : I} {m : M} {r : R} {d : Nat} (hm : P.step m = .inr r)
    (h : Serves P steps value i (.running m) d) :
    ∃ d' < d, Serves P steps value i (.finished r) d' := by
  cases h with
  | running he =>
    cases he with
    | last hlast =>
      cases hm.symm.trans hlast
      exact ⟨0,Nat.zero_lt_one,.finished⟩
    | next hnext _ => cases hm.symm.trans hnext

theorem ServeAll.length {slots : List (Slot M R)} {is : List I} {n : Nat}
    (h : ServeAll P steps value slots is n) : slots.length = is.length := by
  induction h with
  | nil => rfl
  | cons _ _ ih => simp [ih]

theorem ServeAll.focus {before after : List (Slot M R)} {slot : Slot M R} {is : List I} {n : Nat}
    (h : ServeAll P steps value (before ++ slot :: after) is n) : ∃ i ∈ is, ∃ c rest,
      Serves P steps value i slot c ∧ n = c+rest ∧ ∀ slot' c', Serves P steps value i slot' c' →
        ServeAll P steps value (before ++ slot' :: after) is (c'+rest) := by
  induction before generalizing is n with
  | nil =>
    obtain _ | ⟨hs,hall⟩ := h
    exact ⟨_,by simp,_,_,hs,rfl,fun _ _ hs' => .cons hs' hall⟩
  | cons b before ih =>
    obtain _ | ⟨hb,hall⟩ := h
    rename_i j js d m
    obtain ⟨i,hi,c,rest,hs,hn,hput⟩ := ih hall
    refine ⟨i,by simp [hi],c,d+rest,hs,by omega,fun slot' c' hs' => ?_⟩
    have hcons := ServeAll.cons hb (hput slot' c' hs')
    rwa [Nat.add_left_comm] at hcons

theorem ServeAll.snoc {slots : List (Slot M R)} {is : List I} {n c : Nat} {slot : Slot M R} {i : I}
    (h : ServeAll P steps value slots is n) (hs : Serves P steps value i slot c) :
    ServeAll P steps value (slots ++ [slot]) (is ++ [i]) (n+c) := by
  induction h with
  | nil => simpa [Nat.add_comm] using ServeAll.cons hs .nil
  | cons hb _ ih =>
    have hcons := ServeAll.cons hb ih
    rwa [← Nat.add_assoc] at hcons

theorem ServeAll.finished {slots : List (Slot M R)} {is : List I} {n : Nat}
    (h : ServeAll P steps value slots is n) {k : Nat} {r : R}
    (hk : slots[k]? = some (.finished r)) : ∃ i, is[k]? = some i ∧ r = value i := by
  induction h generalizing k with
  | nil => simp at hk
  | @cons slot slots i is c n hs _ ih =>
    cases k with
    | zero =>
      simp only [List.getElem?_cons_zero,Option.some.injEq] at hk
      subst hk
      cases hs
      exact ⟨i,rfl,rfl⟩
    | succ k => exact ih (by simpa using hk)

theorem mapM_take_succ {f : I → Except E O} {xs : List I} {k : Nat} {x : I} {os : List O} {o : O}
    (h : (xs.take k).mapM f = .ok os) (hx : xs[k]? = some x) (ho : f x = .ok o) :
    (xs.take (k+1)).mapM f = .ok (os ++ [o]) := by
  rw [List.take_add_one,hx,List.mapM_append,h,Option.toList_some,List.mapM_cons,ho]
  rfl

theorem mapM_fails {f : I → Except E O} {xs : List I} {k : Nat} {x : I} {os : List O} {e : E}
    (h : (xs.take k).mapM f = .ok os) (hx : xs[k]? = some x) (he : f x = .error e) :
    xs.mapM f = .error e := by
  have hd : xs.drop k = x :: xs.drop (k+1) := by
    obtain ⟨hk,hx⟩ := List.getElem?_eq_some_iff.mp hx
    rw [← hx]
    exact List.drop_eq_getElem_cons hk
  rw [← List.take_append_drop k xs,List.mapM_append,h,hd,List.mapM_cons,he]
  rfl

/-- The state of a program that has handed out the inputs `is`, whose tasks have `c` steps to
do. -/
structure Inv (P : Program I M R E O) (steps : I → Nat) (value : I → R) (inputs : List I)
    (s : State I M R E O) (is : List I) (c : Nat) : Prop where
  inputs_eq : inputs = is ++ s.pending
  serve : ServeAll P steps value s.slots is c
  taken : (inputs.take s.taken.length).mapM (fun i => P.post (value i)) = .ok s.taken
  taken_le : s.taken.length ≤ s.slots.length
  result : ∀ v, s.result = some v → v = inputs.mapM (fun i => P.post (value i))

/-- A bound on the steps left: each input is spawned and begun, each task awaited, and the
program returns. -/
def debt (steps : I → Nat) (s : State I M R E O) (c : Nat) : Nat :=
  c+(s.pending.map (fun i => steps i+2)).sum+
    (if s.result.isNone then s.slots.length+s.pending.length-s.taken.length+1 else 0)

theorem Inv.init {inputs : List I} :
    Inv P steps value inputs (.init inputs) [] 0 where
  inputs_eq := rfl
  serve := .nil
  taken := rfl
  taken_le := Nat.le_refl _
  result := fun _ h => by cases h

theorem Inv.exchange {inputs pending is : List I} {before after : List (Slot M R)}
    {slot slot' : Slot M R} {taken : List O} {result : Option (Except E (List O))} {c : Nat}
    (h : Inv P steps value inputs ⟨pending,before ++ slot :: after,taken,result⟩ is c)
    (hs : ∀ i d, Serves P steps value i slot d → ∃ d' < d, Serves P steps value i slot' d') :
    ∃ is' c', Inv P steps value inputs ⟨pending,before ++ slot' :: after,taken,result⟩ is' c' ∧
      debt steps ⟨pending,before ++ slot' :: after,taken,result⟩ c' <
        debt steps ⟨pending,before ++ slot :: after,taken,result⟩ c := by
  obtain ⟨i,-,d,rest,hslot,rfl,hput⟩ := h.serve.focus
  obtain ⟨d',hd,hslot'⟩ := hs i d hslot
  refine ⟨is,d'+rest,⟨h.inputs_eq,hput slot' d' hslot',h.taken,?_,h.result⟩,?_⟩
  · have hle := h.taken_le
    simp only [List.length_append,List.length_cons] at hle ⊢
    exact hle
  · simp only [debt,List.length_append,List.length_cons]
    omega

theorem Inv.awaited {inputs is : List I} {slots : List (Slot M R)} {taken : List O}
    {result : Option (Except E (List O))} {c : Nat} {r : R}
    (h : Inv P steps value inputs ⟨[],slots,taken,result⟩ is c)
    (hslot : slots[taken.length]? = some (.finished r)) :
    ∃ i, inputs[taken.length]? = some i ∧ r = value i := by
  have heq : inputs = is := by simpa using h.inputs_eq
  rw [heq]
  exact h.serve.finished hslot

/-- Every step keeps the invariant and brings the end closer. -/
theorem Inv.step {threads : Nat} {inputs is : List I} {s s' : State I M R E O} {c : Nat}
    (hends : ∀ i ∈ inputs, Ends P (P.start i) (steps i) (value i))
    (h : Inv P steps value inputs s is c) (hstep : Step P threads s s') : ∃ is' c',
      Inv P steps value inputs s' is' c' ∧ debt steps s' c' < debt steps s c := by
  cases hstep with
  | @spawn i pending slots taken result =>
    have hi : i ∈ inputs := by
      rw [h.inputs_eq]
      simp
    refine ⟨is ++ [i],c+(steps i+1),⟨?_,h.serve.snoc (.queued (hends i hi)),h.taken,?_,h.result⟩,?_⟩
    · rw [h.inputs_eq]
      simp
    · have hle := h.taken_le
      simp only [List.length_append] at hle ⊢
      omega
    · simp only [debt,List.map_cons,List.sum_cons,List.length_append,List.length_cons,
        List.length_nil]
      split <;> omega
  | begin hfree => exact h.exchange (fun _ _ hs => hs.begin)
  | work hm => exact h.exchange (fun _ _ hs => hs.work hm)
  | finish hm => exact h.exchange (fun _ _ hs => hs.finish hm)
  | @await slots r o taken hslot hpost =>
    obtain ⟨i,hi,rfl⟩ := h.awaited hslot
    have hk : taken.length < slots.length := (List.getElem?_eq_some_iff.mp hslot).1
    refine ⟨is,c,⟨h.inputs_eq,h.serve,?_,?_,fun v hv => by cases hv⟩,?_⟩
    · simpa using mapM_take_succ h.taken hi hpost
    · rw [List.length_append]
      exact hk
    · simp only [debt,List.length_append,List.length_cons,List.length_nil,Option.isNone_none,
        if_true]
      omega
  | fail hslot hpost =>
    obtain ⟨i,hi,rfl⟩ := h.awaited hslot
    refine ⟨is,c,⟨h.inputs_eq,h.serve,h.taken,h.taken_le,fun v hv => ?_⟩,?_⟩
    · cases hv
      exact (mapM_fails h.taken hi hpost).symm
    · simp [debt]
  | @ret slots taken hall =>
    refine ⟨is,c,⟨h.inputs_eq,h.serve,h.taken,h.taken_le,fun v hv => ?_⟩,?_⟩
    · cases hv
      have hlen : inputs.length ≤ taken.length := by
        rw [h.inputs_eq,hall,h.serve.length]
        simp
      rw [← h.taken,List.take_of_length_le hlen]
    · simp [debt]

theorem Ends.moves {m : M} {n : Nat} {r : R} (h : Ends P m n r) :
    (∃ m', P.step m = .inl m') ∨ ∃ r', P.step m = .inr r' := by
  cases h with
  | last hm => exact .inr ⟨_,hm⟩
  | next hm _ => exact .inl ⟨_,hm⟩

theorem Inv.running {threads : Nat} {inputs pending is : List I} {before after : List (Slot M R)}
    {m : M} {taken : List O} {result : Option (Except E (List O))} {c : Nat}
    (h : Inv P steps value inputs ⟨pending,before ++ .running m :: after,taken,result⟩ is c) :
    ∃ s', Step P threads ⟨pending,before ++ .running m :: after,taken,result⟩ s' := by
  obtain ⟨i,-,d,rest,hslot,-⟩ := h.serve.focus
  cases hslot with
  | running he =>
    obtain ⟨m',hm⟩ | ⟨r,hm⟩ := he.moves
    · exact ⟨_,.work hm⟩
    · exact ⟨_,.finish hm⟩

end

end Pool
