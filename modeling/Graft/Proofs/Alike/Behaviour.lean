import Graft.Assembly.Listing
import Graft.Proofs.Alike.Verification
import Graft.Proofs.Execution.Steps

/-!
# Bytes decide behaviour

Bodies with the same bytes whose external values come from the same sources cannot be told apart: verification finds the
same in them, they have the same listing, and they run alike (`behaviour_of_encode_eq`). Nothing is asked of the bodies
but that they can be encoded, so that operands may have any shape.

* `Body.Alike.listing_eq` and `Body.Alike.run_eq` say so of listings and of runs.
-/

namespace Graft

namespace Body.Alike

variable {b b' : Body} (h : b.Alike b')

include h

/-! ### Listings -/

private theorem operandText_eq {o o' : Operand} (ho : Operand.Alike b b' o o') :
    Assembly.operandText b o = Assembly.operandText b' o' := by
  cases ho with
  | label here there => simp only [Assembly.operandText, here, there]
  | external n => simp only [Assembly.operandText, h.externals]
  | _ => rfl

private theorem instrLine_eq {i i' : Instruction} (hi : Instruction.Alike b b' i i') :
    Assembly.instrLine b i = Assembly.instrLine b' i' := by
  have hoperands := flatMap_eq_of_forall₂ hi.operands (u := fun o => ' ' :: Assembly.operandText b o)
    (v := fun o => ' ' :: Assembly.operandText b' o) fun o o' ho => by rw [h.operandText_eq ho]
  exact congrArg₂ (fun (op : Opcode) operands => "    ".toList ++ op.mnemonic.toList ++ operands) hi.op hoperands

/-- Alike bodies have the same listing. -/
theorem listing_eq : b.listing = b'.listing := by
  have hlines : Assembly.listingLines b = Assembly.listingLines b' := by
    unfold Assembly.listingLines Assembly.targets
    rw [h.method, h.signature, h.targets_eq]
    dsimp only
    refine congrArg _ (flatMap_eq_of_forall₂ (forall₂_zipIdx h.instrs 0) ?_)
    rintro ⟨i, p⟩ ⟨i', p'⟩ ⟨hi, hp⟩
    obtain rfl : p = p' := hp
    simp only [Assembly.entryLines, h.instrLine_eq hi]
  rw [Body.listing, Body.listing, Assembly.listing, Assembly.listing, hlines]

/-! ### Runs -/

open Execution in
private theorem stepOf_eq {σ : Type} (read : Source → σ → Value × σ) : stepOf read b = stepOf read b' := by
  funext f s
  rw [stepOf, stepOf, advance, advance, cells_getElem?, cells_getElem?, h.signature]
  rcases h.instr? f.pos with ⟨hnone, hnone'⟩ | ⟨i, i', hi, hi', halike⟩
  · simp only [hnone, hnone', Option.map_none, size_cells, h.length]
  · simp only [hi, hi', Option.map_some]
    apply step_congr
    · exact halike.op
    · exact halike.immediate?
    · exact halike.slot?
    · exact halike.target?
    · exact halike.label?
    · exact halike.binding? h.externals

open Execution in
/-- Alike bodies run alike: with the same results and errors, and with the same questions to the sources, which are in the
same state afterwards. -/
theorem run_eq {σ : Type} (read : Source → σ → Value × σ) (args : List Value) (limit : Nat) (s : σ) :
    b.run read args limit s = b'.run read args limit s := by
  have hentry : entryFrame b args = entryFrame b' args := by rw [entryFrame, entryFrame, h.signature]
  rw [Body.run_eq, Body.run_eq, Body.runBy, Body.runBy, h.stepOf_eq, hentry, conclude_congr h.length, h.method,
    h.signature]

end Body.Alike

namespace Body

/-- Bodies with the same bytes and the same sources behave alike. The state of the sources may be anything, a list of the
questions asked so far as well. -/
theorem behaviour_of_encode_eq {b b' : Body} {x : List UInt8} (hx : b.encode = .ok x) (hx' : b'.encode = .ok x)
    (hsources : ∀ n : Nat, b.externals[n]?.map Binding.source = b'.externals[n]?.map Binding.source) :
    b.violations = b'.violations ∧ b.listing = b'.listing ∧
      ∀ {σ : Type} (read : Source → σ → Value × σ) (args : List Value) (limit : Nat) (s : σ),
        b.run read args limit s = b'.run read args limit s := by
  have hmap : b.externals.map Binding.source = b'.externals.map Binding.source := by
    refine Array.ext_getElem? fun n => ?_
    rw [Array.getElem?_map, Array.getElem?_map, hsources n]
  have h := alike_of_encode_eq hx hx' hmap
  exact ⟨congrArg (List.map Typing.Finding.violation) h.findings_eq, h.listing_eq, h.run_eq⟩

/-- A body that asks for a number until it gets zero, by a branch with an operand too many. -/
def asking : Body where
  method := ⟨"Feed", "asking"⟩
  signature := ⟨[], [], none⟩
  entries := [⟨⟨0⟩, .call, [.external 0]⟩, ⟨⟨1⟩, .brtrue, [.label ⟨0⟩, .label ⟨2⟩]⟩, ⟨⟨2⟩, .ret, []⟩]
  externals := #[⟨"numbers", .i32, .feed 0⟩]
  nextId := 3

/-- Sources that count down from two and keep a list of the questions. -/
def countdown (y : Source) (s : List Source) : Value × List Source := (.i32 (.ofNat (2 - s.length)), s ++ [y])

theorem behaviour_renumber_asking :
    (asking.renumber fun t => ⟨8 - t.number⟩).violations = asking.violations ∧
      (asking.renumber fun t => ⟨8 - t.number⟩).listing = asking.listing ∧
      (asking.renumber fun t => ⟨8 - t.number⟩).run countdown [] 100 [] = asking.run countdown [] 100 [] := by
  obtain ⟨x, hx⟩ : ∃ x, asking.encode = .ok x := ⟨_, rfl⟩
  have hcontent : asking.content = (asking.renumber fun t => ⟨8 - t.number⟩).content := by decide
  obtain ⟨hviolations, hlisting, hrun⟩ := behaviour_of_encode_eq (encode_of_content_eq hcontent hx) hx fun _ => rfl
  exact ⟨hviolations, hlisting, hrun countdown [] 100 []⟩

end Body

end Graft
