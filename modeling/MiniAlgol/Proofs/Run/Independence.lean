import MiniAlgol.Proofs.Run.Validity

/-!
# Calls depend on their arguments only

Two calls of one routine with the same arguments, from machines that share nothing but what the
arguments reach, run in step: what they print, how they end and what they leave in the shared
arrays is the same (`invoke_independent`).

The machines are to own the arguments. Those that runs come to do, whatever arguments a caller has
there (`Machine.Valid.owns`).
-/

namespace MiniAlgol

open MiniAlgol.Action Simulation Beginning

/-! ## Calls -/

/-- Stops that are equal up to a matching. -/
inductive Stop.Alike (M : Matching) : Stop → Stop → Prop where
  | fault {f f' : Fault} (hf : f.Alike M f') : Alike M (.fault f) (.fault f')
  | outOfFuel : Alike M .outOfFuel .outOfFuel

/-- The calls with these arguments, started on machines `m` and `n`, ended the same way: up to a
matching that keeps all that the arguments mention and apart from that is about new arrays and
routines only, they gave the same result or fault and left the same arrays, and they printed the
same lines. -/
structure EndSame (args : List Value) (m n : Machine) (M : Matching)
    (p q : Except Stop Value × Machine) : Prop where
  kept : ∀ {a}, m.heap.Reaches args a → M.array a a
  array : ∀ {a b}, M.array a b → m.heap.Reaches args a ∧ a = b ∨ m.heap.size ≤ a ∧ n.heap.size ≤ b
  routine : ∀ {i j}, M.routine i j →
    (∃ r, m.heap.Mentions args (.routine i r)) ∧ i = j ∨ m.nextId ≤ i ∧ n.nextId ≤ j
  result : EndAlike (Stop.Alike M) (Value.Alike M) p.1 q.1
  heap : p.2.heap.Alike M q.2.heap
  printed : ∃ out, p.2.printed = out ++ m.printed ∧ q.2.printed = out ++ n.printed

section Calls

variable {m n : Machine} {args : List Value}

theorem reaches_of_agree (hagree : ∀ a, m.heap.Reaches args a → n.heap[a]? = m.heap[a]?) {a : Nat}
    (ha : m.heap.Reaches args a) : n.heap.Reaches args a := by
  -- along a path from the arguments the two heaps hold the same
  obtain ⟨root, hroot, hpath⟩ := ha
  refine ⟨root, hroot, ?_⟩
  induction hpath with
  | refl => exact .refl
  | tail hpath hstep ih =>
    obtain ⟨x, hx, hmem⟩ := hstep
    exact ih.tail ⟨x, (hagree _ ⟨root, hroot, hpath⟩).trans hx, hmem⟩

theorem mentions_of_agree (hagree : ∀ a, m.heap.Reaches args a → n.heap[a]? = m.heap[a]?)
    {v : Value} (hv : m.heap.Mentions args v) : n.heap.Mentions args v := by
  refine hv.imp_right ?_
  rintro ⟨a, x, ha, hx, hmem⟩
  exact ⟨a, x, reaches_of_agree hagree ha, (hagree a ha).trans hx, hmem⟩

/-- Where two calls with these arguments start from. -/
def beginning (m n : Machine) (args : List Value) (hm : m.Owns args) (hn : n.Owns args)
    (hagree : ∀ a, m.heap.Reaches args a → n.heap[a]? = m.heap[a]?) : Beginning where
  arrays :=
    { kept := m.heap.Reaches args
      first := m.heap.size
      second := n.heap.size
      kept_lt := fun ha => ⟨hm.array ha, hn.array (reaches_of_agree hagree ha)⟩ }
  routines :=
    { kept := fun i => ∃ r, m.heap.Mentions args (.routine i r)
      first := m.nextId
      second := n.nextId
      kept_lt := fun ⟨_, hr⟩ => ⟨hm.routine hr, hn.routine (mentions_of_agree hagree hr)⟩ }
  printed := m.printed
  printed' := n.printed

variable {hm : m.Owns args} {hn : n.Owns args}
  {hagree : ∀ a, m.heap.Reaches args a → n.heap[a]? = m.heap[a]?}

/-- What the arguments mention stands for itself. -/
theorem alike_of_mentions {v : Value} (hv : m.heap.Mentions args v) :
    v.Alike ((beginning m n args hm hn hagree).matching ⟨0, 0⟩) v := by
  cases v with
  | array a =>
    refine .array (.inl ⟨?_, rfl⟩)
    rcases hv with hv | ⟨b, x, hb, hx, hmem⟩
    · exact ⟨a, hv, .refl⟩
    · exact hb.element hx hmem
  | routine i r => exact .routine r (.inl ⟨⟨r, hv⟩, rfl⟩)
  | builtin id b => exact .builtin id b
  | _ => exact .scalar rfl

/-- The two machines, with nothing in scope, are in step at the start. -/
theorem inStep_start (hlevel : m.level ≤ 0 ∧ n.level ≤ 0) :
    (beginning m n args hm hn hagree).InStep ⟨0, 0⟩ { m with scope := Scope.empty }
      { n with scope := Scope.empty } where
  heap := by
    rintro a b (⟨ha, rfl⟩ | ⟨k, hk, -⟩)
    · have hlt : a < m.heap.size := hm.array ha
      have hx : m.heap[a]? = some m.heap[a] := Array.getElem?_eq_getElem hlt
      refine ⟨m.heap[a], m.heap[a], hx, (hagree a ha).trans hx, ArrayObject.Like.self ?_⟩
      exact fun v hv => alike_of_mentions (.inr ⟨a, _, ha, hx, hv⟩)
    · exact absurd hk (Nat.not_lt_zero k)
  size := ⟨rfl, rfl⟩
  nextId := ⟨rfl, rfl⟩
  scope := Scope.related_empty
  printed := ⟨[], rfl, rfl⟩
  level := hlevel

/-- Runs in step that have ended, ended the same way. -/
theorem endSame_of_ends {p q : Except Stop Value × Machine}
    (h : (beginning m n args hm hn hagree).simulation.Ends ⟨0, 0⟩
      (fun w => Value.Alike ((beginning m n args hm hn hagree).matching w)) p q) :
    ∃ M, EndSame args m n M p q := by
  have hend : ∀ {w : Made} {p q : Except Stop Value × Machine},
      (beginning m n args hm hn hagree).InStep w p.2 q.2 →
      EndAlike (Stop.Alike ((beginning m n args hm hn hagree).matching w))
        (Value.Alike ((beginning m n args hm hn hagree).matching w)) p.1 q.1 →
      EndSame args m n ((beginning m n args hm hn hagree).matching w) p q := by
    intro w p q hstep hresult
    refine ⟨fun ha => .inl ⟨ha, rfl⟩, fun hab => ?_, fun hij => ?_, hresult, hstep.heap,
      hstep.printed⟩
    · exact hab.imp_right fun ⟨k, _, ha, hb⟩ => ⟨by rw [ha]; exact Nat.le_add_right _ k,
        by rw [hb]; exact Nat.le_add_right _ k⟩
    · exact hij.imp_right fun ⟨k, _, hi, hj⟩ => ⟨by rw [hi]; exact Nat.le_add_right _ k,
        by rw [hj]; exact Nat.le_add_right _ k⟩
  cases h with
  | exempt hs => exact hs.elim
  | @ok w' a b m' n' _ hstep hv => exact ⟨_, hend hstep (.ok hv)⟩
  | @error w' s t m' n' _ hstep hs =>
    refine ⟨_, hend hstep (.error ?_)⟩
    cases s with
    | fault f =>
      cases t with
      | fault g => exact .fault hs
      | outOfFuel => exact hs.elim
    | outOfFuel =>
      cases t with
      | fault g => exact hs.elim
      | outOfFuel => exact .outOfFuel

end Calls

/-- Blind actions that agree from the start on end the same way in any scopes. -/
theorem exists_endSame {m n : Machine} {args : List Value} {x : Action Value} (hx : Blind x)
    (hm : m.Owns args) (hn : n.Owns args)
    (hagree : ∀ a, m.heap.Reaches args a → n.heap[a]? = m.heap[a]?)
    (hlevel : m.level ≤ 0 ∧ n.level ≤ 0)
    (hagrees : (beginning m n args hm hn hagree).simulation.Agrees ⟨0, 0⟩ x x
      (fun w => Value.Alike ((beginning m n args hm hn hagree).matching w))) :
    ∃ M, EndSame args m n M (x.on m) (x.on n) := by
  obtain ⟨M, h⟩ := endSame_of_ends (hagrees _ _ _ ⟨le_rfl, le_rfl⟩ (inStep_start hlevel))
  rw [hx m Scope.empty, hx n Scope.empty] at h
  exact ⟨M, h.kept, h.array, h.routine, h.result, h.heap, h.printed⟩

/-- Two calls of one routine with the same arguments, from machines that do not trace and agree on
the arrays that the arguments reach, end the same way. Nothing else of the machines matters: not
the other names in scope, whatever they stand for, and not the other arrays. -/
theorem invoke_independent {m n : Machine} {name : Label} {key : Name} {i j : Nat} {r : Routine}
    {args : List Value} (fuel : Nat) (hname : Name.ofLabel name = .ok key)
    (hcallee : m.scope.get? key.key = some (.routine i r))
    (hcallee' : n.scope.get? key.key = some (.routine j r)) (hlevel : m.level ≤ 0 ∧ n.level ≤ 0)
    (hm : m.Owns args) (hn : n.Owns args)
    (hagree : ∀ a, m.heap.Reaches args a → n.heap[a]? = m.heap[a]?) :
    ∃ M, EndSame args m n M ((invoke fuel name args).on m) ((invoke fuel name args).on n) := by
  have Q := (beginning m n args hm hn hagree).primitive
  cases fuel with
  | zero =>
    refine exists_endSame (x := throw .outOfFuel) (fun _ _ => rfl) hm hn hagree hlevel ?_
    exact Agrees.outOfFuel (.inr rfl)
  | succ fuel =>
    rw [invoke_succ, on_bind, on_bind, on_callee hname hcallee, on_callee hname hcallee']
    -- the identity of the routine plays no part in the call
    have hsame : callValue fuel name args (some (.routine j r)) =
        callValue fuel name args (some (.routine i r)) := rfl
    simp only [hsame]
    refine exists_endSame (blind_callValue fuel name args _) hm hn hagree hlevel ?_
    have hargs : (beginning m n args hm hn hagree).simulation.values ⟨0, 0⟩ args args :=
      List.forall₂_same.2 fun v hv => alike_of_mentions (.inl hv)
    simp only [callValue]
    split
    · refine Q.activate trivial hargs ?_
      exact (Q.lawful.agrees (.inl rfl)).executeAll fun _ _ => trivial
    · exact Agrees.fail fun _ _ => .plain rfl

/-! ## An instance

A routine that stores into its argument, called after a program that declares no more than the
routine and the array, and after one that has another array, printed a line before and gave another
meaning to `write`. -/

/-- Stores five in the first element of its argument and gives the argument back. -/
def storeFive : Routine where
  name := "f"
  params := ["a"]
  body :=
    [.indexAssign "a" [.literal "0" "int"] (.literal "5" "int"), .returnStmt (.ident "a")]
  kind := "function"

/-- Declares the routine and an array to call it with. -/
def storeFiveDeclared : List Node :=
  [.routineDecl .function "f" ["a"] storeFive.body, .arrayDecl "b" .int [1] none]

def bareCaller : Machine :=
  ((runProgram 9 (.program storeFiveDeclared)).on {}).2

/-- Prints a line and gives `write` another meaning, and stores an array in itself. -/
def otherStatements : List Node :=
  [.exprStmt (.call "write" [.literal "true" "bool"]), .varDecl .int "write" .missing,
    .arrayDecl "c" .bool [1] none, .indexAssign "c" [.literal "0" "int"] (.ident "c")]

def busyCaller : Machine :=
  ((runProgram 9 (.program (storeFiveDeclared ++ otherStatements))).on {}).2

theorem valid_of_newRun (body : List Node) : ((runProgram 9 (.program body)).on {}).2.Valid := by
  have hbody : programBody (.program body) = .ok body := rfl
  exact runProgram_valid 9 hbody (Machine.valid_new 0) le_rfl

theorem reaches_first {h : Heap} (hx : h[0]? = some (.line .int #[.undefined])) {a : Nat}
    (ha : h.Reaches [.array 0] a) : a = 0 := by
  refine Heap.Reaches.induction (p := fun a => a = 0) (fun a ha => ?_) (fun a b ha hab => ?_) ha
  · simpa using ha
  · subst ha
    obtain ⟨x, hx', hmem⟩ := hab
    rw [hx] at hx'
    cases hx'
    simp [ArrayObject.elements] at hmem

theorem storeFive_independent :
    ∃ M, EndSame [.array 0] bareCaller busyCaller M
      ((invoke 9 "f" [.array 0]).on bareCaller) ((invoke 9 "f" [.array 0]).on busyCaller) := by
  have hbare : bareCaller.heap = #[.line .int #[.undefined]] := by cbv
  have hbusy : busyCaller.heap = #[.line .int #[.undefined], .line .bool #[.array 1]] := by cbv
  have hlevels : bareCaller.level ≤ 0 ∧ busyCaller.level ≤ 0 := ⟨by cbv, by cbv⟩
  -- each machine is what a run came to, so it owns the array
  have howns : bareCaller.Owns [.array 0] := by
    have hvalid : bareCaller.Valid := valid_of_newRun _
    refine hvalid.owns (List.forall_mem_singleton.2 ?_)
    rw [Machine.Has, hbare]
    exact Nat.zero_lt_one
  have howns' : busyCaller.Owns [.array 0] := by
    have hvalid : busyCaller.Valid := valid_of_newRun _
    refine hvalid.owns (List.forall_mem_singleton.2 ?_)
    rw [Machine.Has, hbusy]
    exact Nat.zero_lt_two
  have hcallee : bareCaller.scope.get? (Name.ofWord "f").key = some (.routine 1 storeFive) := by cbv
  have hcallee' : busyCaller.scope.get? (Name.ofWord "f").key = some (.routine 1 storeFive) := by
    cbv
  refine invoke_independent 9 rfl hcallee hcallee' hlevels howns howns' fun a ha => ?_
  rw [reaches_first (by rw [hbare]; rfl) ha, hbare, hbusy]
  rfl

end MiniAlgol
