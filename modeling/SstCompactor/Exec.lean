import SstCompactor.Codec.FixedWidth

/-!
Outcomes of the Rust code. A call returns a value or ends in a `Fault`: the `Err` of a
`Result<_, String>`, or one of the ways in which a build with overflow checks panics.
-/

set_option autoImplicit false

namespace SstCompactor

abbrev Entry := Bytes × Bytes

/-- A `Vec<u8>`, which holds at most `isize::MAX` bytes. -/
structure ByteVec where
  bytes : Bytes
  length_lt : bytes.length < 2^63

def totalBytes (es : List Entry) : Nat := (es.map (fun e => e.1.length+e.2.length)).sum

inductive Fault where
  | err : String → Fault
  | overflow : Fault
  | outOfRange : Fault
  | assertion : Fault
  | expect : String → Fault
  /-- A panic in a third-party crate. -/
  | foreign : String → Fault
  /-- Not an outcome of the code: a loop of the model was given too little fuel. -/
  | outOfFuel : Fault
  deriving DecidableEq, Repr

abbrev Exec := Except Fault

@[simp] theorem ok_bind {α β : Type} (a : α) (f : α → Exec β) :
    (Except.ok a >>= f) = f a := rfl

@[simp] theorem error_bind {α β : Type} (e : Fault) (f : α → Exec β) :
    ((Except.error e : Exec α) >>= f) = Except.error e := rfl

@[simp] theorem pure_eq_ok {α : Type} (a : α) : (pure a : Exec α) = Except.ok a := rfl

@[simp] theorem throw_eq_error {α : Type} (e : Fault) :
    (throw e : Exec α) = Except.error e := rfl

theorem bind_eq_ok {α β : Type} {x : Exec α} {f : α → Exec β} {b : β}
    (h : (x >>= f) = .ok b) : ∃ a, x = .ok a ∧ f a = .ok b := by
  cases x with
  | error e => simp at h
  | ok a => exact ⟨a,rfl,h⟩

/-- `Option::ok_or(msg)?`. -/
def okOr {α : Type} (o : Option α) (msg : String) : Exec α :=
  match o with
  | some a => .ok a
  | none => .error (.err msg)

/-- `Option::expect(msg)`. -/
def expect {α : Type} (o : Option α) (msg : String) : Exec α :=
  match o with
  | some a => .ok a
  | none => .error (.expect msg)

/-- `assert!`. -/
def require (b : Bool) : Exec Unit := if b then .ok () else .error .assertion

/-- `a - b` on an unsigned type. -/
def checkedSub (a b : Nat) : Exec Nat := if b ≤ a then .ok (a-b) else .error .overflow

/-- `a + b` on an unsigned type of `w` bits. -/
def checkedAdd (w a b : Nat) : Exec Nat := if a+b < 2^w then .ok (a+b) else .error .overflow

def checkedMul (w a b : Nat) : Exec Nat := if a*b < 2^w then .ok (a*b) else .error .overflow

def index {α : Type} (xs : List α) (i : Nat) : Exec α :=
  match xs[i]? with
  | some x => .ok x
  | none => .error .outOfRange

/-- `bs.get(a..b)`. -/
def getRange (bs : Bytes) (a b : Nat) : Option Bytes :=
  if a ≤ b ∧ b ≤ bs.length then some ((bs.drop a).take (b-a)) else none

/-- `bs[a..b]`. -/
def slice (bs : Bytes) (a b : Nat) : Exec Bytes :=
  match getRange bs a b with
  | some r => .ok r
  | none => .error .outOfRange

theorem checkedSub_of_le {a b : Nat} (h : b ≤ a) : checkedSub a b = .ok (a-b) := by
  simp [checkedSub,h]

theorem checkedAdd_of_lt {w a b : Nat} (h : a+b < 2^w) : checkedAdd w a b = .ok (a+b) := by
  simp [checkedAdd,h]

theorem checkedAdd_eq_ok {w a b c : Nat} (h : checkedAdd w a b = .ok c) : c = a+b := by
  rw [checkedAdd] at h
  split at h
  · exact (Except.ok.inj h).symm
  · contradiction

theorem toNat_ofNat32 {n : Nat} (h : n < 2^32) : (UInt32.ofNat n).toNat = n :=
  UInt32.toNat_ofNat_of_lt' h

theorem toNat_ofNat64 {n : Nat} (h : n < 2^64) : (UInt64.ofNat n).toNat = n :=
  UInt64.toNat_ofNat_of_lt' h

theorem index_of_getElem? {α : Type} {xs : List α} {i : Nat} {x : α} (h : xs[i]? = some x) :
    index xs i = .ok x := by
  simp [index,h]

theorem index_of_lt {α : Type} {xs : List α} {i : Nat} (h : i < xs.length) :
    index xs i = .ok xs[i] :=
  index_of_getElem? (List.getElem?_eq_getElem h)

theorem getRange_append (pre mid post : Bytes) {b : Nat} (hb : b = pre.length + mid.length) :
    getRange (pre ++ mid ++ post) pre.length b = some mid := by
  subst hb
  simp only [getRange,List.length_append]
  rw [if_pos (by omega),List.append_assoc,List.drop_left,Nat.add_sub_cancel_left,List.take_left]

theorem getRange_at {d p m q : Bytes} {a b : Nat} (hd : d = p ++ m ++ q)
    (ha : a = p.length) (hb : b = a+m.length) : getRange d a b = some m := by
  subst hd ha
  exact getRange_append p m q hb

theorem slice_append (pre mid post : Bytes) {b : Nat} (hb : b = pre.length + mid.length) :
    slice (pre ++ mid ++ post) pre.length b = .ok mid := by
  simp only [slice,getRange_append pre mid post hb]

theorem slice_at {d p m q : Bytes} {a b : Nat} (hd : d = p ++ m ++ q)
    (ha : a = p.length) (hb : b = a+m.length) : slice d a b = .ok m := by
  simp only [slice,getRange_at hd ha hb]

theorem slice_of_le {d : Bytes} {a b : Nat} (h : a ≤ b) (hb : b ≤ d.length) :
    slice d a b = .ok ((d.drop a).take (b-a)) := by
  rw [slice,getRange,if_pos ⟨h,hb⟩]

theorem drop_add_length {d m q : Bytes} {a : Nat} (h : d.drop a = m ++ q) :
    d.drop (a+m.length) = q := by
  rw [← List.drop_drop,h,List.drop_left]

theorem length_of_drop {d m q : Bytes} {a : Nat} (h : d.drop a = m ++ q) (ha : a ≤ d.length) :
    d.length = a+m.length+q.length := by
  have hl := congrArg List.length h
  rw [List.length_drop,List.length_append] at hl
  omega

theorem getRange_of_drop {d m q : Bytes} {a b : Nat} (h : d.drop a = m ++ q)
    (ha : a ≤ d.length) (hb : b = a+m.length) : getRange d a b = some m := by
  have hl := length_of_drop h ha
  rw [getRange,if_pos (by omega),h,hb,Nat.add_sub_cancel_left,List.take_left]

theorem drop_of_getRange {d m : Bytes} {a b : Nat} (h : getRange d a b = some m) :
    d.drop a = m ++ d.drop b ∧ b = a+m.length ∧ b ≤ d.length := by
  rw [getRange] at h
  split at h
  · rename_i hab
    obtain rfl := Option.some.inj h
    have hb : d.drop b = (d.drop a).drop (b-a) := by
      rw [List.drop_drop,Nat.add_sub_cancel' hab.1]
    refine ⟨by rw [hb,List.take_append_drop],?_,hab.2⟩
    rw [List.length_take,List.length_drop]
    omega
  · contradiction

theorem mapM_ok {α β : Type} {f : α → Exec β} {g : α → β} {xs : List α}
    (h : ∀ x ∈ xs, f x = .ok (g x)) : xs.mapM f = .ok (xs.map g) := by
  induction xs with
  | nil => rfl
  | cons x xs ih =>
    rw [List.mapM_cons,h x (by simp),ih (fun y hy => h y (by simp [hy]))]
    rfl

/-- The same outcome but for the text of an error: values related by `R`, an `Err` each, or
the same panic. -/
inductive Alike {α β : Type} (R : α → β → Prop) : Exec α → Exec β → Prop where
  | ok {a : α} {b : β} : R a b → Alike R (.ok a) (.ok b)
  | err (m n : String) : Alike R (.error (.err m)) (.error (.err n))
  | same (e : Fault) : Alike R (.error e) (.error e)

theorem Alike.refl {α : Type} (x : Exec α) : Alike Eq x x := by
  cases x with
  | error e => exact .same e
  | ok a => exact .ok rfl

theorem Alike.bind {α β γ δ : Type} {R : α → β → Prop} {S : γ → δ → Prop} {x : Exec α}
    {y : Exec β} {f : α → Exec γ} {g : β → Exec δ} (h : Alike R x y)
    (hf : ∀ a b, x = .ok a → y = .ok b → R a b → Alike S (f a) (g b)) :
    Alike S (x >>= f) (y >>= g) := by
  cases h with
  | ok hr => exact hf _ _ rfl rfl hr
  | err m n => exact .err m n
  | same e => exact .same e

theorem Alike.err_iff {α β : Type} {R : α → β → Prop} {x : Exec α} {y : Exec β}
    (h : Alike R x y) : (∃ m, x = .error (.err m)) ↔ ∃ m, y = .error (.err m) := by
  cases h with
  | ok _ => simp
  | err m n => simp
  | same e => simp

/-- A value or an `Err`, and no panic. -/
def Returns {α : Type} (x : Exec α) : Prop := (∃ a, x = .ok a) ∨ ∃ m, x = .error (.err m)

theorem Returns.ok {α : Type} (a : α) : Returns (.ok a) := .inl ⟨a,rfl⟩

theorem Returns.err {α : Type} (m : String) : Returns (.error (.err m) : Exec α) := .inr ⟨m,rfl⟩

theorem Returns.bind {α β : Type} {x : Exec α} {f : α → Exec β} (h : Returns x)
    (hf : ∀ a, x = .ok a → Returns (f a)) : Returns (x >>= f) := by
  rcases h with ⟨a,ha⟩ | ⟨m,hm⟩
  · rw [ha]
    exact hf a ha
  · rw [hm]
    exact .err m

theorem Returns.fault {α : Type} {x : Exec α} {e : Fault} (h : Returns x) (he : x = .error e) :
    ∃ m, e = .err m := by
  rcases h with ⟨a,ha⟩ | ⟨m,hm⟩
  · rw [he] at ha
    contradiction
  · exact ⟨m,Except.error.inj (he.symm.trans hm)⟩

theorem Returns.bind_iff {α β : Type} {x : Exec α} {f : α → Exec β} :
    Returns (x >>= f) ↔ Returns x ∧ ∀ a, x = .ok a → Returns (f a) := by
  constructor
  · intro h
    cases x with
    | ok a => exact ⟨.ok a,fun b hb => Except.ok.inj hb ▸ h⟩
    | error e =>
      obtain ⟨m,rfl⟩ := h.fault rfl
      exact ⟨.err m,fun b hb => by contradiction⟩
  · intro h
    exact h.1.bind h.2

theorem Returns.checked_bind_iff {α β : Type} {p : Prop} [Decidable p] {a : α} {f : α → Exec β} :
    Returns ((if p then .ok a else .error .overflow : Exec α) >>= f) ↔ p ∧ Returns (f a) := by
  by_cases hp : p
  · rw [if_pos hp,ok_bind,and_iff_right hp]
  · rw [if_neg hp,error_bind]
    refine ⟨fun h => ?_,fun h => absurd h.1 hp⟩
    obtain ⟨m,hm⟩ := h.fault rfl
    contradiction

theorem Returns.checkedSub_bind_iff {β : Type} {a b : Nat} {f : Nat → Exec β} :
    Returns (checkedSub a b >>= f) ↔ b ≤ a ∧ Returns (f (a-b)) :=
  checked_bind_iff

theorem Returns.checkedAdd_bind_iff {β : Type} {w a b : Nat} {f : Nat → Exec β} :
    Returns (checkedAdd w a b >>= f) ↔ a+b < 2^w ∧ Returns (f (a+b)) :=
  checked_bind_iff

theorem okOr_returns {α : Type} (o : Option α) (msg : String) : Returns (okOr o msg) := by
  cases o with
  | none => exact .err msg
  | some a => exact .ok a

theorem okOr_eq_ok {α : Type} {o : Option α} {msg : String} {a : α} (h : okOr o msg = .ok a) :
    o = some a := by
  cases o with
  | none => simp [okOr] at h
  | some b => exact congrArg some (Except.ok.inj h)

theorem expect_eq_ok {α : Type} {o : Option α} {msg : String} {a : α}
    (h : expect o msg = .ok a) : o = some a := by
  cases o with
  | none => simp [expect] at h
  | some b => exact congrArg some (Except.ok.inj h)

end SstCompactor
