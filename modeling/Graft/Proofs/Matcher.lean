import Graft.Proofs.Cursor.Sweep

/-!
# Patterns as matchers

A pattern can be written as a matcher: a list of tests becomes a nest of the binary connectives, to the left or to the
right. The test for a 32-bit constant asks for the opcode in the one form only, so that the two forms differ on
instructions that hold the constant of another opcode. On instructions of the right shape they agree
(`Pattern.accepts_matcher`), and so do searches, replacements and rules in all verified bodies
(`Pattern.matcher_selects`).
-/

namespace Graft

variable {i : Instruction}

/-! ### Nests -/

/-- Which of the two parts of a connective holds the connective of the other tests. -/
inductive Nesting where
  | left
  | right
deriving DecidableEq

namespace Matcher

/-- All of the tests. -/
def allOf : Nesting → List Matcher → Matcher
  | .left, ms => ms.foldl and any
  | .right, ms => ms.foldr and any

/-- One of the tests. -/
def someOf : Nesting → List Matcher → Matcher
  | .left, ms => ms.foldl or (not any)
  | .right, ms => ms.foldr or (not any)

theorem accepts_allOf (nesting : Nesting) (ms : List Matcher) :
    (allOf nesting ms).accepts i = ms.all fun m => m.accepts i := by
  cases nesting with
  | left =>
    have hfold (m : Matcher) : (ms.foldl and m).accepts i = (m.accepts i && ms.all fun m => m.accepts i) := by
      induction ms generalizing m with
      | nil => simp
      | cons m' ms ih => simp [ih, accepts, Bool.and_assoc]
    exact hfold any
  | right =>
    show (ms.foldr and any).accepts i = ms.all fun m => m.accepts i
    induction ms with
    | nil => rfl
    | cons m ms ih => simp [ih, accepts]

theorem accepts_someOf (nesting : Nesting) (ms : List Matcher) :
    (someOf nesting ms).accepts i = ms.any fun m => m.accepts i := by
  cases nesting with
  | left =>
    have hfold (m : Matcher) : (ms.foldl or m).accepts i = (m.accepts i || ms.any fun m => m.accepts i) := by
      induction ms generalizing m with
      | nil => simp
      | cons m' ms ih => simp [ih, accepts, Bool.or_assoc]
    exact hfold (not any)
  | right =>
    show (ms.foldr or (not any)).accepts i = ms.any fun m => m.accepts i
    induction ms with
    | nil => rfl
    | cons m ms ih => simp [ih, accepts]

end Matcher

/-! ### Patterns -/

namespace Pattern

variable {nesting : Nesting}

mutual

/-- The pattern as a matcher. -/
def matcher (nesting : Nesting) : Pattern → Matcher
  | any => .any
  | opcode op => .opcode op
  | ldcI4 n => .ldcI4 n
  | constant v => .constant v
  | ldarg n => .ldarg n
  | and ps => .allOf nesting (matchers nesting ps)
  | or ps => .someOf nesting (matchers nesting ps)
  | not p => .not (p.matcher nesting)

def matchers (nesting : Nesting) : List Pattern → List Matcher
  | [] => []
  | p :: ps => p.matcher nesting :: matchers nesting ps

end

/-- Only one opcode takes a 32-bit constant. -/
private theorem op_eq_ldcI4 (h : i.hasShape = true) {n : Int32} (hn : i.immediate? = some (.i32 n)) : i.op = .ldcI4 := by
  have hkind := Typing.operandKind_of_immediate? h hn
  cases hop : i.op <;> rw [hop] at hkind <;> first | rfl | cases hkind

mutual

/-- On an instruction of the right shape, a pattern and its matcher give the same answer. -/
theorem accepts_matcher (h : i.hasShape = true) : (p : Pattern) → (p.matcher nesting).accepts i = p.accepts i
  | any => rfl
  | opcode op => rfl
  | ldcI4 n => by
    show (i.immediate? == some (.i32 n)) = (i.op == .ldcI4 && i.immediate? == some (.i32 n))
    by_cases hn : i.immediate? = some (.i32 n)
    · simp [op_eq_ldcI4 h hn]
    · simp [hn]
  | constant v => rfl
  | ldarg n => rfl
  | and ps => by
    rw [matcher, Matcher.accepts_allOf, accepts]
    exact (accepts_matchers h ps).1
  | or ps => by
    rw [matcher, Matcher.accepts_someOf, accepts]
    exact (accepts_matchers h ps).2
  | not p => by rw [matcher, Matcher.accepts, accepts, accepts_matcher h p]

private theorem accepts_matchers (h : i.hasShape = true) : (ps : List Pattern) →
    ((matchers nesting ps).all fun m => m.accepts i) = acceptsAll i ps ∧
      ((matchers nesting ps).any fun m => m.accepts i) = acceptsSome i ps
  | [] => ⟨rfl, rfl⟩
  | p :: ps => by
    obtain ⟨hall, hsome⟩ := accepts_matchers h ps
    rw [matchers, List.all_cons, List.any_cons, hall, hsome, accepts_matcher h p, acceptsAll, acceptsSome]
    exact ⟨rfl, rfl⟩

end

/-- The constant of another opcode passes the matcher, and not the pattern. -/
example : (ldcI4 1).accepts ⟨.ldcI8, [.immediate (.i32 1)]⟩ = false ∧
    ((ldcI4 1).matcher nesting).accepts ⟨.ldcI8, [.immediate (.i32 1)]⟩ = true := ⟨rfl, rfl⟩

end Pattern

/-! ### Searches -/

namespace Cursor

variable {c : Cursor} {f g : Instruction → Bool}

private theorem positionFrom?_congr {is : List Instruction} (h : ∀ i ∈ is, f i = g i) (start : Nat) :
    positionFrom? f start is = positionFrom? g start is := by
  induction is generalizing start with
  | nil => rfl
  | cons i is ih =>
    have hrest := ih (fun j hj => h j (List.mem_cons_of_mem i hj)) (start + 1)
    rw [positionFrom?, positionFrom?, h i List.mem_cons_self, hrest]

/-- A search looks at the instructions of the body only. -/
theorem findNext_congr (h : ∀ i ∈ c.body.instrs, f i = g i) : c.findNext f = c.findNext g := by
  have hscan (start : Nat) : positionFrom? f start (c.body.instrs.drop start) =
      positionFrom? g start (c.body.instrs.drop start) := by
    apply positionFrom?_congr
    intro i hi
    exact h i (List.mem_of_mem_drop hi)
  unfold findNext
  simp only [hscan]

theorem findNth_congr (h : ∀ i ∈ c.body.instrs, f i = g i) (n : Nat) : c.findNth f n = c.findNth g n := by
  induction n generalizing c with
  | zero => rfl
  | succ n ih =>
    have hbody := body_findNext c g
    rw [findNth, findNth, findNext_congr h]
    split
    · rename_i c₁ hfound
      rw [hfound] at hbody
      apply ih
      rwa [show c₁.body = c.body from hbody]
    · rfl

theorem replaceNth_congr (h : ∀ i ∈ c.body.instrs, f i = g i) (n : Nat) (x : Binding) :
    c.replaceNth f n x = c.replaceNth g n x := by
  rw [replaceNth, replaceNth, findNth_congr h]

end Cursor

/-- The operands of all instructions of a verified body have the right shape. -/
theorem Body.hasShape_of_verify {b : Body} (h : b.verify = .ok ()) (hi : i ∈ b.instrs) : i.hasShape = true :=
  ((Typing.wellTyped_of_findings (Typing.verify_eq_ok.1 h)).fits i hi).hasShape

namespace Pattern

/-- It does not matter for a verified body whether a pattern or its matcher is used, neither in a search, nor in a
replacement after some searches, nor in a rule. -/
theorem matcher_selects (nesting : Nesting) (p : Pattern) :
    (∀ i : Instruction, i.hasShape = true → (p.matcher nesting).accepts i = p.accepts i) ∧
    (∀ c : Cursor, c.body.verify = .ok () →
      c.findNext (fun i => (p.matcher nesting).accepts i) = c.findNext (fun i => p.accepts i) ∧
      ∀ n x, c.replaceNth (fun i => (p.matcher nesting).accepts i) n x = c.replaceNth (fun i => p.accepts i) n x) ∧
    ∀ (b : Body) (r : BoundRule), b.verify = .ok () → r.rule.pattern = p →
      (({ body := b } : Cursor).findNth (fun i => (p.matcher nesting).accepts i) r.rule.occurrence).pos?.bind b.id? =
        r.select? b := by
  have hagree (b : Body) (hb : b.verify = .ok ()) : ∀ i ∈ b.instrs, (p.matcher nesting).accepts i = p.accepts i := by
    intro i hi
    exact accepts_matcher (Body.hasShape_of_verify hb hi) p
  refine ⟨fun i hi => accepts_matcher hi p, fun c hc => ⟨?_, fun n x => ?_⟩, fun b r hb hp => ?_⟩
  · exact Cursor.findNext_congr (hagree c.body hc)
  · exact Cursor.replaceNth_congr (hagree c.body hc) n x
  · rw [Cursor.findNth_congr (hagree b hb), ← hp]
    rfl

/-- The constant at the end is the third instruction that passes a test whose parts are nests again. -/
theorem matcher_selects_summing : ∃ p : Pattern, p = .and [.or [.ldcI4 1, .opcode .add], .not (.or []), .and []] ∧
    Cursor.summing.verify = .ok () ∧
    (({ body := Cursor.summing } : Cursor).findNth (fun i => (p.matcher .left).accepts i) 3).pos?.bind
      Cursor.summing.id? = some ⟨4⟩ := by
  refine ⟨_, rfl, by decide +kernel, ?_⟩
  obtain ⟨-, -, hselect⟩ := matcher_selects .left (.and [.or [.ldcI4 1, .opcode .add], .not (.or []), .and []])
  rw [hselect Cursor.summing ⟨⟨_, 3, "offset"⟩, ⟨"offset", .i32, .setting "offset"⟩⟩ (by decide +kernel) rfl]
  decide +kernel

end Pattern

end Graft
