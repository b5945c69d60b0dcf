import MiniAlgol.Proofs.Heap.Shape
import MiniAlgol.Proofs.Run.ElementTypes
import MiniAlgol.Proofs.Tree.Extents
import MiniAlgol.Proofs.Value.Outcomes

/-!
# Operators on the values of a session

`Value.apply_iff_outcome` says of all values what the operators give. An operand can be an array
with an extent that is too long to be written, and then the error of an operator that refuses it
cannot name its type. No such array comes up while a program runs that was read from its source or
from JSON text (`Session.Passes.shortExtents`): arrays have the extents of their declarations, and
those can be written (`Node.IsRead.shortExtents`).
-/

namespace MiniAlgol

open MiniAlgol.Action Invariant Simulation

open Numeral (writeBound)

/-! ## Programs that are read -/

/-- The program was read, from its source or from JSON text. -/
inductive Node.IsRead (n : Node) : Prop where
  | source {text : String} (hparse : Source.parse text = .ok n) : IsRead n
  | json {text : String} {j : Json} (hread : Json.read text = .ok j)
      (hload : Node.ofJson j = .ok n) : IsRead n

theorem Node.IsRead.shortExtents {n : Node} (hn : n.IsRead) : n.ShortExtents := by
  cases hn with
  | source hparse => exact shortExtents_of_parse hparse
  | json hread hload => exact shortExtents_of_ofJson hread hload

theorem Node.ShortExtents.body {program : Node} {body : List Node}
    (hprogram : program.ShortExtents) (hbody : programBody program = .ok body) :
    ∀ s ∈ body, s.ShortExtents :=
  fun _ hs => hprogram.part (Node.mem_parts_of_programBody hbody hs)

/-! ## The invariant -/

/-- A routine declares arrays only whose extents can be written. -/
def Value.DeclaresShort : Value → Prop
  | .routine _ r => ∀ s ∈ r.body, s.ShortExtents
  | _ => True

/-- Arrays have the shapes of declarations whose extents can be written, and hold routines with such
declarations only. -/
structure Heap.Writable (h : Heap) : Prop where
  shape : ∀ {a : Nat} {x}, h[a]? = some x →
    ∃ extents, x.HasShape x.elem extents ∧ ∀ n ∈ extents, n.natAbs < writeBound
  element : ∀ {a : Nat} {x v}, h[a]? = some x → v ∈ x.elements → v.DeclaresShort

theorem Heap.Writable.shortExtents {h : Heap} (hh : h.Writable) : h.ShortExtents where
  extent := by
    intro c elem rows cols cells hx n hn
    obtain ⟨extents, hshape, hshort⟩ := hh.shape hx
    cases hshape
    exact hshort n hn

/-- The invariant of the runs of trees whose extents can be written. -/
def writing : Invariant where
  expression _ := True
  statement := Node.ShortExtents
  routine r := ∀ s ∈ r.body, s.ShortExtents
  address _ _ := True
  heap := Heap.Writable
  fault _ _ := True
  address_grows _ _ := trivial

theorem writing_value {h : Heap} {v : Value} : writing.value h v ↔ v.DeclaresShort := by
  cases v <;> exact Iff.rfl

theorem writing_kept : writing.Kept where
  expression_parts _ _ _ := trivial
  statement_expressions _ _ _ := trivial
  statement_parts hn _ hs := hn.part (Node.mem_parts_of_mem_statements hs)
  routine_body hr := hr
  declared hn _ hs := hn.part hs
  element hh _ hx hv := writing_value.2 (hh.element hx hv)
  push := by
    intro h name elem extents init x hh hs hx
    refine ⟨⟨fun {a y} hy => ?_, fun {a y v} hy hv => ?_⟩, trivial⟩
    · rw [Array.getElem?_push] at hy
      split at hy
      · cases hy
        have hshape := ArrayObject.hasShape_allocate hx
        exact ⟨extents, hshape.elem_eq.symm ▸ hshape, hs _ .refl⟩
      · exact hh.shape hy
    · exact Heap.elements_push (P := fun _ _ v => v.DeclaresShort) hh.element hx
        (fun _ _ => trivial) hy hv
  put := by
    intro h a x x' i j v hh _ hx hv _ hput
    refine ⟨fun {b y} hy => ?_, fun {b y u} hy hu => ?_⟩
    · rw [Heap.getElem?_set hx] at hy
      split at hy
      · cases hy
        obtain ⟨extents, hshape, hshort⟩ := hh.shape hx
        have hshape' := hshape.put hput
        exact ⟨extents, hshape'.elem_eq.symm ▸ hshape', hshort⟩
      · exact hh.shape hy
    · exact Heap.elements_put (P := fun _ _ v => v.DeclaresShort) hh.element hx
        (writing_value.1 hv) hput hy hu

theorem writing_allows : writing.Allows :=
  allows_of_fault trivial

/-! ## Sessions -/

namespace Session

variable {s : Session}

/-- What a session can come to by running programs that were read, in scopes and at levels of the
trace as they may be. -/
inductive Reads : Session → Prop where
  | new (level : Int) : Reads (atLevel level)
  | run {s : Session} (hs : Reads s) (scope : String) (fuel : Nat) {program : Node}
      (hprogram : program.IsRead) :
      Reads ((s.withScope scope).within scope (runProgram fuel program)).2
  | level {s : Session} (hs : Reads s) (level : Int) :
      Reads { s with machine := { s.machine with level } }

theorem Reads.everywhere (hs : s.Reads) : writing.Everywhere s := by
  induction hs with
  | new level => exact everywhere_atLevel (I := writing) ⟨nofun, nofun⟩ level
  | run _ scope fuel hprogram ih =>
    have hbody : ∀ body, programBody _ = .ok body → ∀ n ∈ body, n.ShortExtents :=
      fun _ hbody => hprogram.shortExtents.body hbody
    refine ih.within scope (writing_kept.runProgram writing_allows fuel hbody (ih scope)) ?_
    exact fun hv => writing_value.2 (writing_value.1 hv)
  | level _ _ ih => exact fun name => ⟨(ih name).heap, (ih name).scope⟩

/-- While a program that was read runs, all extents can be written. -/
theorem Passes.shortExtents {scope : String} {fuel : Nat} {program : Node} {h : Heap}
    (hs : s.Reads) (hprogram : program.IsRead) (hh : s.Passes scope fuel program h) :
    h.ShortExtents := by
  have hstart := hs.everywhere scope
  have Q := writing_kept.primitive writing_allows
  have hfits : ∀ {body t m}, programBody program = .ok body →
      (Task.executeAll fuel body).Visits
        (startRun.on { s.machine with scope := s.scope scope }).2 t m → t.Fits writing m :=
    fun hbody => Task.Fits.visits Q.lawful
      (.executeAll hstart.startRun (hprogram.shortExtents.body hbody))
  cases hh with
  | before => exact hstart.heap.shortExtents
  | started hbody hvisits => exact (hfits hbody hvisits).holds.heap.shortExtents
  | left hbody hvisits => exact ((hfits hbody hvisits).leaves Q).heap.shortExtents

end Session

/-! ## What operators give -/

namespace Value

variable {heap : Heap} {a b v : Value}

section Scalars

variable (hscalars : ∀ {a : Nat} {x v}, heap[a]? = some x → v ∈ x.elements → v.isScalar)
include hscalars

end Scalars

end Value

end MiniAlgol
