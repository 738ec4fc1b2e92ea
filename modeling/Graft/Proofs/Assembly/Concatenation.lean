import Graft.Proofs.Assembly.Drafts

/-!
# Texts that are put together

The methods of a text are read one by one: each is what its own lines are read as, wherever these stand.

* `Line.later` moves a line further down. `Section.body_later` says that nothing but the line number of an error depends on
  where the lines of a method stand.
* `bodies_append_of_opens` reads a text that was put together from two.
* `exists_parts` takes a text apart into its methods.
-/

namespace Graft

/-- The error, with its line `k` lines further down. -/
def Error.later (k : Nat) : Error → Error
  | .badAssembly line fault raw => .badAssembly (line + k) fault raw
  | e => e

namespace Assembly

open Text

variable {k : Nat}

/-! ### Lines further down -/

/-- The line, `k` lines further down. -/
def Line.later (k : Nat) (l : Line) : Line := { l with number := l.number + k }

theorem Line.code_later (l : Line) : (l.later k).code = l.code := rfl

theorem Line.header?_later (l : Line) : (l.later k).header? = l.header? := rfl

/-- The section, `k` lines further down. -/
def Section.later (k : Nat) (s : Section) : Section :=
  { s with opening := s.opening.later k, rest := s.rest.map (Line.later k) }

/-- The row, `k` lines further down. -/
def Row.later (k : Nat) (r : Row) : Row := { r with line := r.line.later k }

/-- The draft, with its lines `k` lines further down. -/
def Draft.later (k : Nat) (d : Draft) : Draft :=
  { d with opening := d.opening.later k, rows := d.rows.map (Row.later k) }

/-- What comes of a computation about lines when they stand `k` lines further down and what it gives is moved. -/
def postponed {α β : Type} (k : Nat) (move : α → β) (x : Except Error α) : Except Error β :=
  (x.mapError (Error.later k)).map move

section Postponed

variable {α β γ δ : Type} {move : α → β} {move' : γ → δ}

theorem postponed_eq_ok {x : Except Error α} {r : β} : postponed k move x = .ok r ↔ ∃ a, x = .ok a ∧ move a = r := by
  rw [postponed, map_eq_ok]
  simp only [mapError_eq_ok]

theorem postponed_bind {x : Except Error α} {g : α → Except Error γ} {g' : β → Except Error δ}
    (h : ∀ a, g' (move a) = postponed k move' (g a)) :
    postponed k move x >>= g' = postponed k move' (x >>= g) := by
  cases x with
  | error e => rfl
  | ok a => exact h a

theorem mapM_postponed {g : α → Except Error γ} {g' : β → Except Error δ}
    (h : ∀ a, g' (move a) = postponed k move' (g a)) (as : List α) :
    (as.map move).mapM g' = postponed k (List.map move') (as.mapM g) := by
  induction as with
  | nil => rfl
  | cons a as ih =>
    rw [List.map_cons, List.mapM_cons, List.mapM_cons, h, ih]
    exact postponed_bind fun c => postponed_bind fun cs => rfl

theorem foldlM_postponed {f : α → γ → Except Error α} {f' : β → δ → Except Error β}
    (h : ∀ a c, f' (move a) (move' c) = postponed k move (f a c)) (cs : List γ) (a : α) :
    (cs.map move').foldlM f' (move a) = postponed k move (cs.foldlM f a) := by
  induction cs generalizing a with
  | nil => rfl
  | cons c cs ih =>
    rw [List.map_cons, List.foldlM_cons, List.foldlM_cons, h]
    exact postponed_bind ih

end Postponed

theorem sections_later (ls : List Line) :
    sections (ls.map (Line.later k)) = ((sections ls).1.map (Line.later k), (sections ls).2.map (Section.later k)) := by
  induction ls with
  | nil => rfl
  | cons l ls ih =>
    rw [List.map_cons]
    cases hl : l.header? with
    | none => rw [sections_cons hl, sections_cons (l.header?_later.trans hl), ih, List.map_cons]
    | some header =>
      rw [sections_cons_header hl, sections_cons_header (l.header?_later.trans hl), ih]
      rfl

namespace Draft

theorem labels_later (d : Draft) : (d.later k).labels = d.labels := rfl

theorem length_rows_later (d : Draft) : (d.later k).rows.length = d.rows.length := List.length_map _

private theorem setLocals_later (d : Draft) (l : Line) (list : List Char) :
    (d.later k).setLocals (l.later k) list = postponed k (Draft.later k) (d.setLocals l list) := by
  have hempty : (d.later k).rows.isEmpty = d.rows.isEmpty := List.isEmpty_map
  unfold setLocals
  rw [hempty]
  split
  · cases readTypes list <;> rfl
  · rfl

private theorem addLabel_later (d : Draft) (l : Line) (text : List Char) :
    (d.later k).addLabel (l.later k) text = postponed k (Draft.later k) (d.addLabel l text) := by
  unfold addLabel
  rw [length_rows_later, labels_later]
  split
  · split
    · rfl
    · rfl
  · rfl

private theorem addRow_later (d : Draft) (l : Line) :
    (d.later k).addRow (l.later k) = postponed k (Draft.later k) (d.addRow l) := by
  have hrow (op : Opcode) (operand : Option (List Char)) :
      { d.later k with rows := (d.later k).rows ++ [⟨op, operand, l.later k⟩] } =
        Draft.later k { d with rows := d.rows ++ [⟨op, operand, l⟩] } := by
    simp [Draft.later, Row.later]
  unfold addRow
  rw [Line.code_later]
  split
  · rfl
  · split
    · rfl
    · rename_i op _
      split
      · exact congrArg Except.ok (hrow op none)
      · exact congrArg Except.ok (hrow op (some _))
      · rfl

theorem addLine_later (d : Draft) (l : Line) :
    (d.later k).addLine (l.later k) = postponed k (Draft.later k) (d.addLine l) := by
  unfold addLine
  rw [Line.code_later]
  split
  · exact setLocals_later d l _
  · split
    · exact addLabel_later d l _
    · exact addRow_later d l

theorem instruction_later (labels : List (List Char × Nat)) (r : Row) :
    instruction labels (r.later k) = postponed k id (instruction labels r) := by
  obtain ⟨op, operand, line⟩ := r
  unfold instruction Row.later
  dsimp only
  split
  · rfl
  · rfl
  · rfl
  · split <;> rfl
  · split <;> rfl
  · split <;> rfl
  · rfl
  · rfl

theorem assemble_later (d : Draft) : (d.later k).assemble = postponed k id d.assemble := by
  unfold assemble
  rw [length_rows_later, labels_later]
  split
  · rfl
  · have hinstrs : (d.later k).rows.mapM (instruction d.labels) =
        postponed k (List.map id) (d.rows.mapM (instruction d.labels)) :=
      mapM_postponed (instruction_later d.labels) d.rows
    rw [hinstrs]
    exact postponed_bind fun instrs => List.map_id_fun ▸ rfl

end Draft

/-- The number of a line in an error is all that depends on where a method stands. -/
theorem Section.body_later (s : Section) : (s.later k).body = postponed k id s.body := by
  have hheader : (s.later k).header = s.header := rfl
  unfold Section.body
  rw [hheader]
  cases readHeader s.header with
  | error fault => rfl
  | ok parts =>
    have hlines : (s.later k).rest.foldlM Draft.addLine (Draft.later k ⟨s.opening, parts.1, parts.2, [], []⟩) =
        postponed k (Draft.later k) (s.rest.foldlM Draft.addLine ⟨s.opening, parts.1, parts.2, [], []⟩) :=
      foldlM_postponed Draft.addLine_later s.rest _
    exact (congrArg (· >>= Draft.assemble) hlines).trans (postponed_bind Draft.assemble_later)

/-! ### Two texts -/

section Append

variable {a b src : List Char} {us vs : List Line} {bs xs ys : List Body}

/-- The lines of the second text stand further down by as many lines as the first text has, comments and blank lines
among them. -/
theorem Line.ofText_append (ha : a.getLast? = some '\n') (b : List Char) :
    ofText (a ++ b) = ofText a ++ (ofText b).map (later (lines a).length) := by
  have hrest : ((lines b).zipIdx (lines a).length).map (fun x => (⟨x.2 + 1, x.1, uncommented x.1⟩ : Line)) =
      ((lines b).zipIdx.map fun x => (⟨x.2 + 1, x.1, uncommented x.1⟩ : Line)).map (later (lines a).length) := by
    rw [List.zipIdx_eq_map_add, List.map_map, List.map_map]
    refine List.map_congr_left fun x _ => ?_
    simp only [Function.comp_apply, later, Line.mk.injEq, and_true]
    omega
  have hread (ls : List Line) : (ls.map (later (lines a).length)).filter (fun l => !l.code.isEmpty) =
      (ls.filter fun l => !l.code.isEmpty).map (later (lines a).length) := List.filter_map
  unfold ofText
  rw [lines_append ha, List.zipIdx_append, Nat.zero_add, List.map_append, List.filter_append, hrest, hread]

/-- A text can be cut between two lines that are read. -/
theorem Line.exists_of_ofText_eq_append (h : ofText src = us ++ vs) (hus : us ≠ []) (hvs : vs ≠ []) :
    ∃ a b, src = a ++ b ∧ a.getLast? = some '\n' ∧ ofText a = us ∧ vs = (ofText b).map (later (lines a).length) := by
  obtain ⟨numbered, numbered', hnumbered, rfl, rfl⟩ := List.filter_eq_append_iff.1 h
  obtain ⟨indexed, indexed', hindexed, rfl, rfl⟩ := List.map_eq_append_iff.1 hnumbered
  obtain ⟨raws, raws', hraws, rfl, rfl⟩ := List.zipIdx_eq_append_iff.1 hindexed
  have hne : raws' ≠ [] := by
    rintro rfl
    exact hvs rfl
  obtain ⟨a, b, rfl, ha, rfl, rfl⟩ := exists_of_lines_eq_append hraws hne
  rcases ha with rfl | ha
  · exact absurd rfl hus
  · refine ⟨a, b, rfl, ha, rfl, ?_⟩
    rw [ofText_append ha] at h
    exact (List.append_cancel_left h).symm

/-- There is something to read in the text, and it begins with a method. -/
structure Opens (src : List Char) : Prop where
  nonempty : Line.ofText src ≠ []
  inside : (sections (Line.ofText src)).1 = []

theorem opens_of_bodies (h : bodies src = .ok bs) : Opens src := by
  obtain ⟨hne, secs, hsecs, -⟩ := bodies_eq_ok.1 h
  exact ⟨hne, congrArg Prod.fst hsecs⟩

theorem Opens.bodies_eq_mapM (h : Opens src) : bodies src = (sections (Line.ofText src)).2.mapM Section.body := by
  obtain ⟨secs, hsecs⟩ : ∃ secs, sections (Line.ofText src) = ([], secs) := ⟨_, Prod.ext h.inside rfl⟩
  rw [hsecs]
  unfold bodies
  cases hls : Line.ofText src with
  | nil => exact absurd hls h.nonempty
  | cons l ls =>
    rw [hls] at hsecs
    simp only [hsecs]

/-- A line before the first method is all that is reported, whatever the methods are. -/
theorem bodies_of_stray {stray : Line} {before : List Line} (h : (sections (Line.ofText src)).1 = stray :: before) :
    bodies src = .error (stray.error .outsideMethod) := by
  obtain ⟨secs, hsecs⟩ : ∃ secs, sections (Line.ofText src) = (stray :: before, secs) := ⟨_, Prod.ext h rfl⟩
  unfold bodies
  cases hls : Line.ofText src with
  | nil =>
    rw [hls] at hsecs
    cases hsecs
  | cons l ls =>
    rw [hls] at hsecs
    simp only [hsecs]

theorem sections_ofText_append (ha : a.getLast? = some '\n') (hb : Opens b) :
    sections (Line.ofText (a ++ b)) = ((sections (Line.ofText a)).1,
      (sections (Line.ofText a)).2 ++ (sections (Line.ofText b)).2.map (Section.later (lines a).length)) := by
  have hinside : (sections ((Line.ofText b).map (Line.later (lines a).length))).1 = [] := by
    rw [sections_later, hb.inside]
    rfl
  rw [Line.ofText_append ha, sections_append hinside, sections_later]

/-- The methods of two texts are read one after the other, each as in its own text. -/
theorem bodies_append_of_opens (ha : a.getLast? = some '\n') (hopens : Opens a) (hb : Opens b) :
    bodies (a ++ b) = (do
      let xs ← bodies a
      let ys ← postponed (lines a).length id (bodies b)
      return xs ++ ys) := by
  have happend : Opens (a ++ b) := by
    constructor
    · rw [Line.ofText_append ha]
      exact List.append_ne_nil_of_left_ne_nil hopens.nonempty _
    · rw [sections_ofText_append ha hb, hopens.inside]
  have hsections : ((sections (Line.ofText b)).2.map (Section.later (lines a).length)).mapM Section.body =
      postponed (lines a).length (List.map id) ((sections (Line.ofText b)).2.mapM Section.body) :=
    mapM_postponed Section.body_later _
  rw [happend.bodies_eq_mapM, sections_ofText_append ha hb, List.mapM_append, hsections, List.map_id_fun,
    hopens.bodies_eq_mapM, hb.bodies_eq_mapM]

/-- A text that is read consists of texts with one method each. -/
theorem exists_parts (h : bodies src = .ok bs) :
    ∃ parts : List (List Char), parts.flatten = src ∧ List.Forall₂ (fun part b => bodies part = .ok [b]) parts bs := by
  induction bs generalizing src with
  | nil =>
    obtain ⟨hne, secs, hsecs, hbodies⟩ := bodies_eq_ok.1 h
    cases hbodies
    exact absurd (sections_spec hsecs).1 hne
  | cons b bs ih =>
    obtain ⟨-, secs, hsecs, hbodies⟩ := bodies_eq_ok.1 h
    obtain ⟨hlines, -, hwhole⟩ := sections_spec hsecs
    obtain ⟨s, secs, hfirst, hrest, rfl⟩ := List.forall₂_cons_right_iff.1 hbodies
    rw [List.nil_append, List.flatMap_cons] at hlines
    obtain ⟨hs, hwhole⟩ := List.forall_mem_cons.1 hwhole
    have hown : sections s.lines = ([], [s]) := by
      have hsections := sections_flatMap_lines (List.forall_mem_singleton.2 hs)
      rwa [List.flatMap_singleton] at hsections
    by_cases hsecs : secs = []
    · subst hsecs
      cases hrest
      exact ⟨[src], List.flatten_singleton, .cons h .nil⟩
    · -- the first method ends where the second one begins
      have hmore : secs.flatMap Section.lines ≠ [] := by
        obtain ⟨s', secs, rfl⟩ := List.exists_cons_of_ne_nil hsecs
        exact List.cons_ne_nil _ _
      obtain ⟨first, rest, rfl, ha, hone, hlater⟩ :=
        Line.exists_of_ofText_eq_append hlines (List.cons_ne_nil _ _) hmore
      have hread : bodies first = .ok [b] :=
        bodies_eq_ok.2 ⟨hone ▸ List.cons_ne_nil _ _, [s], hone ▸ hown, .cons hfirst .nil⟩
      have hopens : Opens rest := by
        have hinside := congrArg Prod.fst (sections_flatMap_lines hwhole)
        rw [hlater, sections_later] at hinside
        refine ⟨fun hnil => hmore ?_, List.map_eq_nil_iff.1 hinside⟩
        rw [hlater, hnil, List.map_nil]
      rw [bodies_append_of_opens ha (opens_of_bodies hread) hopens, hread] at h
      obtain ⟨ys, hys, h⟩ := bind_eq_ok.1 (show postponed _ id (bodies rest) >>= _ = _ from h)
      obtain ⟨zs, hzs, rfl⟩ := postponed_eq_ok.1 hys
      obtain rfl := (List.cons.inj (Except.ok.inj h)).2
      obtain ⟨parts, rfl, hparts⟩ := ih hzs
      exact ⟨first :: parts, List.flatten_cons, .cons hread hparts⟩

/-- What is wrong with a text is reported whatever methods follow. -/
theorem bodies_append_of_error {err : Error} (ha : a.getLast? = some '\n') (hne : Line.ofText a ≠ []) (hb : Opens b)
    (h : bodies a = .error err) : bodies (a ++ b) = .error err := by
  cases hstray : (sections (Line.ofText a)).1 with
  | nil =>
    rw [bodies_append_of_opens ha ⟨hne, hstray⟩ hb, h]
    rfl
  | cons stray before =>
    rw [bodies_of_stray hstray] at h
    rw [← h]
    exact bodies_of_stray ((congrArg Prod.fst (sections_ofText_append ha hb)).trans hstray)

/-- Two texts that are read, the first of which ends where a line does, are read as one text with the methods of both, in
their order. Each of the texts consists of parts with one method each, and each part is read alone as it is read in its
text: no label, local or row of a method has an influence on another one, whatever names they have. If there are methods
that cannot be read, the error for the text that is put together is the one for their own text, except for the number of
the line. -/
theorem bodies_append (ha : a.getLast? = some '\n') (hxs : bodies a = .ok xs) (hys : bodies b = .ok ys) :
    bodies (a ++ b) = .ok (xs ++ ys) ∧
    (∃ parts parts' : List (List Char), parts.flatten = a ∧ parts'.flatten = b ∧
      List.Forall₂ (fun part x => bodies part = .ok [x]) parts xs ∧
      List.Forall₂ (fun part y => bodies part = .ok [y]) parts' ys) ∧
    (∀ c err, Opens c → bodies c = .error err → bodies (a ++ c) = .error (err.later (lines a).length)) ∧
    ∀ c err, c.getLast? = some '\n' → Line.ofText c ≠ [] → bodies c = .error err → bodies (c ++ b) = .error err := by
  have hopens : Opens a := opens_of_bodies hxs
  obtain ⟨parts, hparts, hread⟩ := exists_parts hxs
  obtain ⟨parts', hparts', hread'⟩ := exists_parts hys
  refine ⟨?_, ⟨parts, parts', hparts, hparts', hread, hread'⟩, fun c err hc herr => ?_, fun c err hc hne herr => ?_⟩
  · rw [bodies_append_of_opens ha hopens (opens_of_bodies hys), hxs, hys]
    rfl
  · rw [bodies_append_of_opens ha hopens hc, hxs, herr]
    rfl
  · exact bodies_append_of_error hc hne (opens_of_bodies hys) herr

/-- Two texts with one method each, of the same name and with the same labels in another order. -/
def twins : List Char × List Char :=
  (".method A::f()\n.locals (i32)\n@top:\nbr @end\n@end:\nret # here\n".toList,
    "// again\n.method A::f()\n@end:\nnop\n@top:\nbr @end".toList)

/-- The second method has no locals, and its labels stand where its own lines put them. -/
theorem bodies_append_twins : ∃ x y, bodies twins.1 = .ok [x] ∧ bodies twins.2 = .ok [y] ∧
    bodies (twins.1 ++ twins.2) = .ok [x, y] ∧
    (x.signature.locals, x.entries) = ([.i32], [⟨⟨0⟩, .br, [.label ⟨1⟩]⟩, ⟨⟨1⟩, .ret, []⟩]) ∧
    (y.signature.locals, y.entries) = ([], [⟨⟨0⟩, .nop, []⟩, ⟨⟨1⟩, .br, [.label ⟨0⟩]⟩]) := by
  have hfirst : ((bodies twins.1).toOption.map fun bs => bs.map fun b => (b.signature.locals, b.entries)) =
      some [([.i32], [⟨⟨0⟩, .br, [.label ⟨1⟩]⟩, ⟨⟨1⟩, .ret, []⟩])] := by decide
  have hsecond : ((bodies twins.2).toOption.map fun bs => bs.map fun b => (b.signature.locals, b.entries)) =
      some [([], [⟨⟨0⟩, .nop, []⟩, ⟨⟨1⟩, .br, [.label ⟨0⟩]⟩])] := by decide
  obtain ⟨xs, hxs, hfirst⟩ := Option.map_eq_some_iff.1 hfirst
  obtain ⟨ys, hys, hsecond⟩ := Option.map_eq_some_iff.1 hsecond
  obtain ⟨x, rfl, hx⟩ := List.map_eq_singleton_iff.1 hfirst
  obtain ⟨y, rfl, hy⟩ := List.map_eq_singleton_iff.1 hsecond
  have hread := toOption_eq_some.1 hxs
  have hread' := toOption_eq_some.1 hys
  have hlast : twins.1.getLast? = some '\n' := by decide
  exact ⟨x, y, hread, hread', (bodies_append hlast hread hread').1, hx, hy⟩

end Append

end Assembly

end Graft
