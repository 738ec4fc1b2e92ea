import Graft.Proofs.Failure
import Graft.Proofs.Json.Tokens

/-!
# Reading what was written

* `Json.Plain` says that a tree has only parts that are written as they are read: no broken parts, and no numbers of more
  than 64 bits.
* `depth_of_read?` says that a tree that is read is not nested deeper than the reader allows.
* `read?_compact` and `read?_pretty` say that a plain tree is read from its texts, if it is not nested deeper than that.
-/

namespace Graft.Json

open Text.Numeral (ofInt)

variable {j : Json} {js : List Json} {fs : List (String × Json)} {fuel limit : Nat} {level : Option Nat}
  {cs rest : List Char}

/-- Trees without broken parts in which all numbers are whole and fit into 64 bits. -/
inductive Plain : Json → Prop
  | null : Plain .null
  | bool (b : Bool) : Plain (.bool b)
  | int {z : Int} (fits : Fits64 z) : Plain (.int z)
  | str (s : String) : Plain (.str s)
  | arr {items : List Json} (all : ∀ j ∈ items, Plain j) : Plain (.arr items)
  | obj {fields : List (String × Json)} (all : ∀ f ∈ fields, Plain f.2) : Plain (.obj fields)

private theorem allSound_iff : allSound js = true ↔ ∀ j ∈ js, j.isSound = true := by
  induction js with
  | nil => simp [allSound]
  | cons j js ih => rw [allSound, Bool.and_eq_true, ih, List.forall_mem_cons]

private theorem allSoundFields_iff : allSoundFields fs = true ↔ ∀ f ∈ fs, f.2.isSound = true := by
  induction fs with
  | nil => simp [allSoundFields]
  | cons f fs ih => rw [allSoundFields, Bool.and_eq_true, ih, List.forall_mem_cons]

theorem Plain.isSound (hj : Plain j) : j.isSound = true := by
  induction hj with
  | arr _ ih => exact allSound_iff.2 ih
  | obj _ ih => exact allSoundFields_iff.2 ih
  | _ => rfl

/-! ### Depth -/

theorem depthOfItems_le {n : Nat} : depthOfItems js ≤ n ↔ ∀ j ∈ js, j.depth ≤ n := by
  induction js with
  | nil => simp [depthOfItems]
  | cons j js ih => rw [depthOfItems, Nat.max_le, ih, List.forall_mem_cons]

theorem depthOfFields_le {n : Nat} : depthOfFields fs ≤ n ↔ ∀ f ∈ fs, f.2.depth ≤ n := by
  induction fs with
  | nil => simp [depthOfFields]
  | cons f fs ih => rw [depthOfFields, Nat.max_le, ih, List.forall_mem_cons]

theorem depth_lt_arr (h : j ∈ js) : j.depth < (arr js).depth :=
  Nat.lt_succ_of_le (depthOfItems_le.1 (Nat.le_refl _) j h)

theorem depth_lt_obj {f : String × Json} (h : f ∈ fs) : f.2.depth < (obj fs).depth :=
  Nat.lt_succ_of_le (depthOfFields_le.1 (Nat.le_refl _) f h)

private theorem depth_number? (h : number? cs = some j) : j.depth = 0 := by
  obtain ⟨negative, cs, h⟩ : ∃ negative cs, magnitude? negative cs = some j := by
    unfold number? at h
    split at h
    · exact ⟨true, _, h⟩
    · exact ⟨false, _, h⟩
  unfold magnitude? at h
  dsimp only at h
  split at h
  · cases h
  · split at h
    · cases h
    · split at h
      · exact Option.some.inj h ▸ rfl
      · split at h
        · obtain ⟨n, -, rfl⟩ := Option.map_eq_some_iff.1 h
          rfl
        · exact Option.some.inj h ▸ rfl

private theorem depth_ofItems (h : ∀ j ∈ js, j.depth ≤ limit - 1) : (ofItems limit js).depth ≤ limit := by
  unfold ofItems
  split
  · exact Nat.zero_le _
  · have := depthOfItems_le.2 h
    rw [depth]
    omega

private theorem depth_ofFields {fields : List (Option String × Json)} (h : ∀ f ∈ fields, f.2.depth ≤ limit - 1) :
    (ofFields limit fields).depth ≤ limit := by
  unfold ofFields
  split
  · exact Nat.zero_le _
  · split
    · rename_i fs hnamed
      have hdepth : ∀ f ∈ fs, f.2.depth ≤ limit - 1 := by
        intro f hf
        obtain ⟨f', hf', heq⟩ := exists_of_mem_right (mapM_eq_some_iff.1 hnamed) hf
        obtain ⟨name, -, rfl⟩ := Option.map_eq_some_iff.1 heq
        exact h f' hf'
      have := depthOfFields_le.2 hdepth
      rw [depth]
      omega
    · exact Nat.zero_le _

/-- What is read with some fuel is nested at most as deep as the reader is told. -/
private structure Shallow (fuel : Nat) : Prop where
  value : ∀ {limit cs j rest}, value? fuel limit cs = some (j, rest) → j.depth ≤ limit
  items : ∀ {limit cs js rest}, items? fuel limit cs = some (js, rest) → ∀ j ∈ js, j.depth ≤ limit
  fields : ∀ {limit cs fs rest}, fields? fuel limit cs = some (fs, rest) → ∀ f ∈ fs, f.2.depth ≤ limit

private theorem Shallow.value_succ (ih : Shallow fuel) (h : value? (fuel + 1) limit cs = some (j, rest)) :
    j.depth ≤ limit := by
  unfold value? at h
  split at h
  · cases h
    exact Nat.zero_le _
  · cases h
    exact Nat.zero_le _
  · cases h
    exact Nat.zero_le _
  · obtain ⟨⟨s, rest'⟩, -, hs⟩ := Option.map_eq_some_iff.1 h
    obtain ⟨rfl, rfl⟩ := Prod.mk.inj hs
    cases s <;> exact Nat.zero_le _
  · split at h
    · cases h
      exact depth_ofItems nofun
    · obtain ⟨⟨js, rest'⟩, hjs, heq⟩ := Option.map_eq_some_iff.1 h
      obtain ⟨rfl, rfl⟩ := Prod.mk.inj heq
      exact depth_ofItems (ih.items hjs)
  · split at h
    · cases h
      exact depth_ofFields nofun
    · obtain ⟨⟨fs, rest'⟩, hfs, heq⟩ := Option.map_eq_some_iff.1 h
      obtain ⟨rfl, rfl⟩ := Prod.mk.inj heq
      exact depth_ofFields (ih.fields hfs)
  · obtain ⟨j', hj', heq⟩ := Option.map_eq_some_iff.1 h
    obtain ⟨rfl, rfl⟩ := Prod.mk.inj heq
    rw [depth_number? hj']
    exact Nat.zero_le _

private theorem Shallow.items_succ (ih : Shallow fuel) (h : items? (fuel + 1) limit cs = some (js, rest)) :
    ∀ j ∈ js, j.depth ≤ limit := by
  unfold items? at h
  split at h
  · cases h
  · rename_i hfirst
    split at h
    · cases h
      exact List.forall_mem_singleton.2 (ih.value hfirst)
    · obtain ⟨⟨js, rest'⟩, hjs, heq⟩ := Option.map_eq_some_iff.1 h
      obtain ⟨rfl, rfl⟩ := Prod.mk.inj heq
      exact List.forall_mem_cons.2 ⟨ih.value hfirst, ih.items hjs⟩
    · cases h

private theorem Shallow.fields_succ {gs : List (Option String × Json)} (ih : Shallow fuel)
    (h : fields? (fuel + 1) limit cs = some (gs, rest)) : ∀ g ∈ gs, g.2.depth ≤ limit := by
  unfold fields? at h
  split at h
  · split at h
    · cases h
    · split at h
      · split at h
        · cases h
        · rename_i hfirst
          split at h
          · cases h
            exact List.forall_mem_singleton.2 (ih.value hfirst)
          · obtain ⟨⟨gs, rest'⟩, hgs, heq⟩ := Option.map_eq_some_iff.1 h
            obtain ⟨rfl, rfl⟩ := Prod.mk.inj heq
            exact List.forall_mem_cons.2 ⟨ih.value hfirst, ih.fields hgs⟩
          · cases h
      · cases h
  · cases h

private theorem shallow (fuel : Nat) : Shallow fuel := by
  induction fuel with
  | zero => exact ⟨nofun, nofun, nofun⟩
  | succ fuel ih => exact ⟨ih.value_succ, ih.items_succ, ih.fields_succ⟩

/-- A tree that is read is not nested deeper than the reader allows. -/
theorem depth_of_read? {s : String} (h : read? limit s = some j) : j.depth ≤ limit := by
  unfold read? at h
  dsimp only at h
  split at h
  · rename_i hvalue
    split at h
    · obtain rfl := Option.some.inj h
      exact (shallow _).value hvalue
    · cases h
  · cases h

/-! ### Between the parts of a text -/

theorem skip_of_head {c : Char} (hc : isSpace c = false) : skip (c :: cs) = c :: cs :=
  List.dropWhile_cons_of_neg (by simp [hc])

private theorem skip_lineBreak (level : Option Nat) (cs : List Char) : skip (lineBreak level ++ cs) = skip cs := by
  refine List.dropWhile_append_of_pos fun c hc => ?_
  cases level with
  | none => cases hc
  | some n =>
    rcases List.mem_cons.1 hc with rfl | hc
    · rfl
    · obtain rfl := List.eq_of_mem_replicate hc
      rfl

private theorem colon_spec (level : Option Nat) (cs : List Char) :
    ∃ after, colon level ++ cs = ':' :: after ∧ skip after = skip cs := by
  cases level with
  | none => exact ⟨cs, rfl, rfl⟩
  | some n => exact ⟨' ' :: cs, rfl, List.dropWhile_cons_of_pos rfl⟩

/-- A text in front of which a number ends. -/
def Stops (rest : List Char) : Prop := ∀ c, rest.head? = some c → isNumeric c = false

theorem stops_nil : Stops [] := nofun

theorem stops_cons {c : Char} (hc : isNumeric c = false) : Stops (c :: cs) := by
  intro d hd
  obtain rfl := Option.some.inj hd
  exact hc

private theorem stops_lineBreak (level : Option Nat) {c : Char} (hc : isNumeric c = false) :
    Stops (lineBreak level ++ c :: cs) := by
  cases level with
  | none => exact stops_cons hc
  | some n => exact stops_cons rfl

/-- The text of a value starts with a character that is no blank and closes no array. -/
private theorem exists_head (hj : Plain j) (level : Option Nat) :
    ∃ c cs, j.chars level = c :: cs ∧ isSpace c = false ∧ c ≠ ']' := by
  cases hj with
  | null => exact ⟨_, _, rfl, rfl, by decide⟩
  | bool b => cases b <;> exact ⟨_, _, rfl, rfl, by decide⟩
  | @int z fits =>
    obtain ⟨c, cs, hcs⟩ := List.exists_cons_of_ne_nil (ofInt_ne_nil z)
    have hnumeric := numeric_ofInt z c (hcs ▸ List.mem_cons_self)
    refine ⟨c, cs, hcs, ?_, ?_⟩
    · by_contra hspace
      rw [Bool.not_eq_false] at hspace
      simp only [isSpace, Bool.or_eq_true, beq_iff_eq] at hspace
      rcases hspace with ((rfl | rfl) | rfl) | rfl <;> cases hnumeric
    · rintro rfl
      cases hnumeric
  | str s => exact ⟨_, _, rfl, rfl, by decide⟩
  | @arr items all => cases items <;> exact ⟨_, _, rfl, rfl, by decide⟩
  | @obj fields all =>
    cases fields with
    | nil => exact ⟨_, _, rfl, rfl, by decide⟩
    | cons f fs => exact ⟨_, _, rfl, rfl, by decide⟩

/-! ### Values -/

/-- The value is read back from its text, whatever follows, if it is not nested too deep. -/
def ReadsBack (j : Json) : Prop :=
  ∀ {fuel limit : Nat} {level : Option Nat} {rest : List Char}, (j.chars level).length ≤ fuel → j.depth ≤ limit →
    Stops rest → value? fuel limit (j.chars level ++ rest) = some (j, rest)

private theorem readsBack_int {z : Int} (hz : Fits64 z) : ReadsBack (.int z) := by
  intro fuel limit level rest hfuel _ hrest
  obtain ⟨c, cs, hcs⟩ := List.exists_cons_of_ne_nil (ofInt_ne_nil z)
  have htext : (int z).chars level = ofInt z := rfl
  rw [htext] at hfuel ⊢
  have hlength : 0 < (ofInt z).length := List.length_pos_of_ne_nil (ofInt_ne_nil z)
  obtain ⟨fuel, rfl⟩ := Nat.exists_eq_succ_of_ne_zero (by omega : fuel ≠ 0)
  have htoken : (ofInt z ++ rest).takeWhile isNumeric = ofInt z ∧ (ofInt z ++ rest).dropWhile isNumeric = rest := by
    rw [List.takeWhile_append_of_pos (numeric_ofInt z), List.dropWhile_append_of_pos (numeric_ofInt z)]
    cases rest with
    | nil => simp
    | cons d ds =>
      have hd : isNumeric d = false := hrest d rfl
      simp [hd]
  have hc : isNumeric c = true := numeric_ofInt z c (hcs ▸ List.mem_cons_self)
  have hnumber : value? (fuel + 1) limit (ofInt z ++ rest) =
      (number? ((ofInt z ++ rest).takeWhile isNumeric)).map fun j => (j, (ofInt z ++ rest).dropWhile isNumeric) := by
    rw [hcs, List.cons_append]
    rw [value?]
    -- none of the other parts of a text starts as a number does
    all_goals
      intro _ heq
      rw [(List.cons.inj heq).1] at hc
      cases hc
  rw [hnumber, htoken.1, htoken.2, number?_ofInt hz]
  rfl

/-- Items are read from their texts, up to the bracket behind the last. -/
private theorem items?_chars {inner : Option Nat} (hplain : ∀ k ∈ j :: js, Plain k) (hreads : ∀ k ∈ j :: js, ReadsBack k)
    (hfuel : (j.chars inner).length + (charsOfItems inner js).length < fuel) (hdepth : ∀ k ∈ j :: js, k.depth ≤ limit) :
    items? fuel limit (j.chars inner ++ (charsOfItems inner js ++ (lineBreak level ++ ']' :: rest))) =
      some (j :: js, rest) := by
  induction js generalizing j fuel with
  | nil =>
    obtain ⟨fuel, rfl⟩ := Nat.exists_eq_succ_of_ne_zero (by omega : fuel ≠ 0)
    have hvalue : value? fuel limit (j.chars inner ++ (lineBreak level ++ ']' :: rest)) =
        some (j, lineBreak level ++ ']' :: rest) :=
      hreads j List.mem_cons_self (by omega) (hdepth j List.mem_cons_self) (stops_lineBreak level rfl)
    have hclose : skip (lineBreak level ++ ']' :: rest) = ']' :: rest := skip_lineBreak ..
    rw [charsOfItems, List.nil_append, items?, hvalue]
    simp only [hclose]
  | cons k js ih =>
    obtain ⟨fuel, rfl⟩ := Nat.exists_eq_succ_of_ne_zero (by omega : fuel ≠ 0)
    obtain ⟨-, hplain⟩ := List.forall_mem_cons.1 hplain
    obtain ⟨hfirst, hreads⟩ := List.forall_mem_cons.1 hreads
    obtain ⟨hshallow, hdepth⟩ := List.forall_mem_cons.1 hdepth
    obtain ⟨c, cs, hcs, hspace, -⟩ := exists_head (hplain k List.mem_cons_self) inner
    rw [charsOfItems, List.length_append, List.length_append, List.length_cons] at hfuel
    have hshorter : (k.chars inner).length + (charsOfItems inner js).length < fuel := by omega
    have hrest := ih hplain hreads hshorter hdepth
    -- the items after the first start behind the comma and the line break
    obtain ⟨after, hafter⟩ : ∃ after, after = k.chars inner ++ (charsOfItems inner js ++ (lineBreak level ++ ']' :: rest)) :=
      ⟨_, rfl⟩
    have htext : charsOfItems inner (k :: js) ++ (lineBreak level ++ ']' :: rest) = ',' :: (lineBreak inner ++ after) := by
      rw [charsOfItems, hafter]
      simp only [List.cons_append, List.append_assoc]
    have hvalue : value? fuel limit (j.chars inner ++ ',' :: (lineBreak inner ++ after)) =
        some (j, ',' :: (lineBreak inner ++ after)) :=
      hfirst (by omega) hshallow (stops_cons rfl)
    have hskip : skip (lineBreak inner ++ after) = after := by
      rw [skip_lineBreak, hafter, hcs]
      exact skip_of_head hspace
    have hcomma : skip (',' :: (lineBreak inner ++ after)) = ',' :: (lineBreak inner ++ after) := skip_of_head rfl
    rw [htext, items?, hvalue]
    simp only [hcomma, hskip]
    rw [hafter, hrest]
    rfl

/-- The name of a field and the colon are read up to the text of its value. -/
private theorem exists_field (hj : Plain j) (name : String) (here inner : Option Nat) (after : List Char) :
    ∃ text behind, quoted name ++ (colon here ++ (j.chars inner ++ after)) = '"' :: text ∧
      string? text = some (some name, ':' :: behind) ∧ skip behind = j.chars inner ++ after := by
  obtain ⟨c, cs, hcs, hspace, -⟩ := exists_head hj inner
  obtain ⟨behind, hbehind, hskip⟩ := colon_spec here (j.chars inner ++ after)
  obtain ⟨text, htext, hname⟩ := string?_quoted name (':' :: behind)
  refine ⟨text, behind, by rw [hbehind, htext], hname, hskip.trans ?_⟩
  rw [hcs]
  exact skip_of_head hspace

/-- Fields are read from their texts, up to the brace behind the last. -/
private theorem fields?_chars {inner : Option Nat} {name : String} (hplain : ∀ f ∈ (name, j) :: fs, Plain f.2)
    (hreads : ∀ f ∈ (name, j) :: fs, ReadsBack f.2) (here : Option Nat)
    (hfuel : (j.chars inner).length + (charsOfFields inner fs).length < fuel)
    (hdepth : ∀ f ∈ (name, j) :: fs, f.2.depth ≤ limit) :
    fields? fuel limit (quoted name ++ (colon here ++ (j.chars inner ++
      (charsOfFields inner fs ++ (lineBreak level ++ '}' :: rest))))) =
        some (((name, j) :: fs).map fun f => (some f.1, f.2), rest) := by
  induction fs generalizing name j fuel here with
  | nil =>
    obtain ⟨fuel, rfl⟩ := Nat.exists_eq_succ_of_ne_zero (by omega : fuel ≠ 0)
    obtain ⟨text, behind, htext, hname, hskip⟩ :=
      exists_field (hplain _ List.mem_cons_self) name here inner (lineBreak level ++ '}' :: rest)
    have hvalue : value? fuel limit (j.chars inner ++ (lineBreak level ++ '}' :: rest)) =
        some (j, lineBreak level ++ '}' :: rest) :=
      hreads (name, j) List.mem_cons_self (by dsimp only; omega) (hdepth _ List.mem_cons_self)
        (stops_lineBreak level rfl)
    have hcolon : skip (':' :: behind) = ':' :: behind := skip_of_head rfl
    have hclose : skip (lineBreak level ++ '}' :: rest) = '}' :: rest := skip_lineBreak ..
    rw [charsOfFields, List.nil_append, htext, fields?]
    simp only [hname, hcolon, hskip, hvalue, hclose]
    rfl
  | cons g fs ih =>
    obtain ⟨name', k⟩ := g
    obtain ⟨fuel, rfl⟩ := Nat.exists_eq_succ_of_ne_zero (by omega : fuel ≠ 0)
    obtain ⟨hfirst, hplain⟩ := List.forall_mem_cons.1 hplain
    obtain ⟨hback, hreads⟩ := List.forall_mem_cons.1 hreads
    obtain ⟨hshallow, hdepth⟩ := List.forall_mem_cons.1 hdepth
    simp only [charsOfFields, List.length_append, List.length_cons] at hfuel
    have hshorter : (k.chars inner).length + (charsOfFields inner fs).length < fuel := by omega
    have hrest := ih hplain hreads inner hshorter hdepth
    -- the fields after the first start behind the comma and the line break
    obtain ⟨after, hafter⟩ : ∃ after, after = quoted name' ++ (colon inner ++ (k.chars inner ++
        (charsOfFields inner fs ++ (lineBreak level ++ '}' :: rest)))) := ⟨_, rfl⟩
    have hcomma : charsOfFields inner ((name', k) :: fs) ++ (lineBreak level ++ '}' :: rest) =
        ',' :: (lineBreak inner ++ after) := by
      rw [charsOfFields, hafter]
      simp only [List.cons_append, List.append_assoc]
    obtain ⟨text, behind, htext, hname, hskip⟩ := exists_field hfirst name here inner (',' :: (lineBreak inner ++ after))
    have hvalue : value? fuel limit (j.chars inner ++ ',' :: (lineBreak inner ++ after)) =
        some (j, ',' :: (lineBreak inner ++ after)) :=
      hback (by dsimp only; omega) hshallow (stops_cons rfl)
    have hcolon : skip (':' :: behind) = ':' :: behind := skip_of_head rfl
    have hstay : skip (',' :: (lineBreak inner ++ after)) = ',' :: (lineBreak inner ++ after) := skip_of_head rfl
    have hnext : skip (lineBreak inner ++ after) = after := by
      rw [skip_lineBreak, hafter]
      exact skip_of_head rfl
    rw [hcomma, htext, fields?]
    simp only [hname, hcolon, hskip, hvalue, hstay, hnext]
    rw [hafter, hrest]
    rfl

private theorem ofFields_map {fs : List (String × Json)} (hlimit : limit ≠ 0) :
    ofFields limit (fs.map fun f => (some f.1, f.2)) = obj fs := by
  have hnamed : (fs.map fun f => (some f.1, f.2)).mapM (fun (f : Option String × Json) => f.1.map fun name => (name, f.2)) =
      some fs := by
    induction fs with
    | nil => rfl
    | cons f fs ih =>
      rw [List.map_cons, List.mapM_cons, ih]
      rfl
  rw [ofFields, if_neg hlimit]
  split
  · rename_i heq
    obtain rfl := Option.some.inj (hnamed.symm.trans heq)
    rfl
  · rename_i heq
    cases hnamed.symm.trans heq

private theorem exists_fuel (hj : Plain j) (hfuel : (j.chars level).length ≤ fuel) : ∃ n, fuel = n + 1 := by
  obtain ⟨c, cs, hcs, -⟩ := exists_head hj level
  rw [hcs, List.length_cons] at hfuel
  exact Nat.exists_eq_succ_of_ne_zero (by omega)

/-- An array with items is read from the text of its items. -/
private theorem value?_items (inner : Option Nat) {body : List Char} (hlimit : limit ≠ 0)
    (hskip : skip body = body) (hopen : body.head? ≠ some ']')
    (hitems : items? fuel (limit - 1) body = some (js, rest)) :
    value? (fuel + 1) limit ('[' :: (lineBreak inner ++ body)) = some (arr js, rest) := by
  rw [value?, skip_lineBreak, hskip]
  split
  · exact absurd rfl hopen
  · rw [hitems, Option.map_some]
    dsimp only
    rw [ofItems, if_neg hlimit]

/-- An object with fields is read from the text of its fields. -/
private theorem value?_fields (inner : Option Nat) {body : List Char} (hlimit : limit ≠ 0)
    (hskip : skip body = body) (hopen : body.head? ≠ some '}')
    (hfields : fields? fuel (limit - 1) body = some (fs.map fun f => (some f.1, f.2), rest)) :
    value? (fuel + 1) limit ('{' :: (lineBreak inner ++ body)) = some (obj fs, rest) := by
  rw [value?, skip_lineBreak, hskip]
  split
  · exact absurd rfl hopen
  · rw [hfields, Option.map_some]
    dsimp only
    rw [ofFields_map hlimit]

private theorem readsBack_arr {items : List Json} (all : ∀ j ∈ items, Plain j) (ih : ∀ j ∈ items, ReadsBack j) :
    ReadsBack (.arr items) := by
  intro fuel limit level rest hfuel hdepth _
  obtain ⟨n, rfl⟩ := exists_fuel (.arr all) hfuel
  have hlimit : limit ≠ 0 := Nat.ne_of_gt (Nat.lt_of_lt_of_le (Nat.succ_pos _) hdepth)
  cases items with
  | nil =>
    show some (ofItems limit [], rest) = _
    rw [ofItems, if_neg hlimit]
  | cons j js =>
    obtain ⟨inner, hinner⟩ : ∃ inner, inner = level.map (· + 1) := ⟨_, rfl⟩
    have hitems (k : Json) (hk : k ∈ j :: js) : k.depth ≤ limit - 1 := by
      have := depth_lt_arr hk
      omega
    obtain ⟨c, cs, hcs, hspace, hclose⟩ := exists_head (all j List.mem_cons_self) inner
    rw [chars, ← hinner] at hfuel ⊢
    simp only [List.length_append, List.length_cons] at hfuel
    have hread : items? n (limit - 1) (j.chars inner ++ (charsOfItems inner js ++ (lineBreak level ++ ']' :: rest))) =
        some (j :: js, rest) := items?_chars all ih (by omega) hitems
    have hvalue := value?_items inner hlimit (by rw [hcs]; exact skip_of_head hspace)
      (by rw [hcs]; exact fun h => hclose (Option.some.inj h)) hread
    simpa only [List.cons_append, List.append_assoc, List.nil_append] using hvalue

private theorem readsBack_obj {fields : List (String × Json)} (all : ∀ f ∈ fields, Plain f.2)
    (ih : ∀ f ∈ fields, ReadsBack f.2) : ReadsBack (.obj fields) := by
  intro fuel limit level rest hfuel hdepth _
  obtain ⟨n, rfl⟩ := exists_fuel (.obj all) hfuel
  have hlimit : limit ≠ 0 := Nat.ne_of_gt (Nat.lt_of_lt_of_le (Nat.succ_pos _) hdepth)
  cases fields with
  | nil =>
    have hempty : ofFields limit (([] : List (String × Json)).map fun f => (some f.1, f.2)) = .obj [] :=
      ofFields_map hlimit
    exact congrArg (fun j => some (j, rest)) hempty
  | cons f fs =>
    obtain ⟨name, j⟩ := f
    obtain ⟨inner, hinner⟩ : ∃ inner, inner = level.map (· + 1) := ⟨_, rfl⟩
    have hfields (f : String × Json) (hf : f ∈ (name, j) :: fs) : f.2.depth ≤ limit - 1 := by
      have := depth_lt_obj hf
      omega
    rw [chars, ← hinner] at hfuel ⊢
    simp only [List.length_append, List.length_cons] at hfuel
    have hread : fields? n (limit - 1) (quoted name ++ (colon level ++ (j.chars inner ++
        (charsOfFields inner fs ++ (lineBreak level ++ '}' :: rest))))) =
          some (((name, j) :: fs).map fun f => (some f.1, f.2), rest) := fields?_chars all ih level (by omega) hfields
    have hquote (after : List Char) : skip (quoted name ++ after) = quoted name ++ after := skip_of_head rfl
    have hclose (after : List Char) : (quoted name ++ after).head? ≠ some '}' := by
      intro h
      cases Option.some.inj h
    have hvalue := value?_fields inner hlimit (hquote _) (hclose _) hread
    simpa only [List.cons_append, List.append_assoc, List.nil_append] using hvalue

/-- A plain value is read back from its text. -/
theorem Plain.readsBack (hj : Plain j) : ReadsBack j := by
  induction hj with
  | null =>
    intro fuel limit level rest hfuel _ _
    obtain ⟨n, rfl⟩ := exists_fuel .null hfuel
    rfl
  | bool b =>
    intro fuel limit level rest hfuel _ _
    obtain ⟨n, rfl⟩ := exists_fuel (.bool b) hfuel
    cases b <;> rfl
  | int fits => exact readsBack_int fits
  | str s =>
    intro fuel limit level rest hfuel _ _
    obtain ⟨n, rfl⟩ := exists_fuel (.str s) hfuel
    obtain ⟨text, htext, hs⟩ := string?_quoted s rest
    rw [chars, htext, value?, hs]
    rfl
  | arr all ih => exact readsBack_arr all ih
  | obj all ih => exact readsBack_obj all ih

/-! ### Texts -/

/-- A plain tree is read from its text, on one line or laid out. -/
private theorem read?_chars (hj : Plain j) (hdepth : j.depth ≤ limit) (level : Option Nat) :
    read? limit (String.ofList (j.chars level)) = some j := by
  obtain ⟨c, cs, hcs, hspace, -⟩ := exists_head hj level
  have hskip : skip (j.chars level) = j.chars level := by
    rw [hcs]
    exact skip_of_head hspace
  have hvalue : value? ((j.chars level).length + 1) limit (j.chars level ++ []) = some (j, []) :=
    hj.readsBack (Nat.le_succ _) hdepth stops_nil
  rw [List.append_nil] at hvalue
  unfold read?
  simp only [String.toList_ofList, hskip, hvalue]
  rfl

theorem read?_compact (hj : Plain j) (hdepth : j.depth ≤ limit) : read? limit j.compact = some j :=
  read?_chars hj hdepth none

theorem read?_pretty (hj : Plain j) (hdepth : j.depth ≤ limit) : read? limit j.pretty = some j :=
  read?_chars hj hdepth (some 0)

end Graft.Json
