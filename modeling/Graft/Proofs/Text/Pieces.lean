import Graft.Text.Blank
import Graft.Text.Cut
import Graft.Text.Lines
import Mathlib.Data.List.Chain

/-!
# Pieces of texts

What the readers of texts find in a text that was put together from pieces.

* `lines_flatMap` gives back lines that were each followed by a line feed, `lines_append` puts texts together where a line
  ends, and `exists_of_lines_eq_append` takes them apart there.
* `Trimmed` and `Unslashed` say that trimming and cutting comments off leave a text as it is.
* `words_append`, `partsAt_append` and `splitAtLastClose?_append` take a text apart where its pieces meet.
-/

namespace Graft.Text

variable {l cs ds pre : List Char} {c mark : Char}

/-! ### Lines -/

private theorem go_append (h : '\n' ∉ l) (acc : List Char) : lines.go acc (l ++ cs) = lines.go (l.reverse ++ acc) cs := by
  induction l generalizing acc with
  | nil => rfl
  | cons c l ih =>
    rw [List.mem_cons, not_or] at h
    rw [List.cons_append, lines.go, if_neg (Ne.symm h.1), ih h.2, List.reverse_cons, List.append_assoc,
      List.singleton_append]

private theorem dropReturn_reverse (h : l.getLast? ≠ some '\r') : dropReturn l.reverse = l.reverse := by
  rw [← List.head?_reverse] at h
  cases hl : l.reverse with
  | nil => rfl
  | cons c cs =>
    rw [hl, List.head?_cons] at h
    unfold dropReturn
    split
    · rename_i heq
      exact absurd (congrArg some (List.cons.inj heq).1) h
    · rfl

private theorem lines_cons (h : '\n' ∉ l) (cs : List Char) :
    lines (l ++ '\n' :: cs) = (dropReturn l.reverse).reverse :: lines cs := by
  rw [lines, go_append h, List.append_nil, lines.go, if_pos rfl]
  rfl

/-- Lines that hold no line feed, and do not end with a carriage return, come back as they were. -/
theorem lines_flatMap {ls : List (List Char)} (hfeed : ∀ l ∈ ls, '\n' ∉ l) (hreturn : ∀ l ∈ ls, l.getLast? ≠ some '\r') :
    lines (ls.flatMap fun l => l ++ ['\n']) = ls := by
  induction ls with
  | nil => rfl
  | cons l ls ih =>
    have hl : '\n' ∉ l := hfeed l List.mem_cons_self
    have hrest := ih (fun m hm => hfeed m (List.mem_cons_of_mem l hm)) fun m hm => hreturn m (List.mem_cons_of_mem l hm)
    rw [List.flatMap_cons, List.append_assoc, List.singleton_append, lines_cons hl,
      dropReturn_reverse (hreturn l List.mem_cons_self), List.reverse_reverse, hrest]

private theorem mem_go {acc : List Char} (hacc : '\n' ∉ acc) (h : l ∈ lines.go acc cs) : '\n' ∉ l := by
  induction cs generalizing acc with
  | nil =>
    unfold lines.go at h
    split at h
    · cases h
    · obtain rfl := List.mem_singleton.1 h
      rwa [List.mem_reverse]
  | cons c cs ih =>
    unfold lines.go at h
    split at h
    · have hdropped : '\n' ∉ dropReturn acc := by
        unfold dropReturn
        split
        · exact fun hmem => hacc (List.mem_cons_of_mem _ hmem)
        · exact hacc
      rcases List.mem_cons.1 h with rfl | h
      · rwa [List.mem_reverse]
      · exact ih List.not_mem_nil h
    · rename_i hc
      refine ih ?_ h
      rw [List.mem_cons, not_or]
      exact ⟨Ne.symm hc, hacc⟩

/-- The lines of two texts, of which the first one ends where a line does. -/
theorem lines_append (h : cs.getLast? = some '\n') (ds : List Char) : lines (cs ++ ds) = lines cs ++ lines ds := by
  have hgo (init acc : List Char) :
      lines.go acc (init ++ '\n' :: ds) = lines.go acc (init ++ ['\n']) ++ lines.go [] ds := by
    induction init generalizing acc with
    | nil => rfl
    | cons c init ih =>
      rw [List.cons_append, List.cons_append, lines.go, lines.go, ih, ih]
      split
      · rfl
      · rfl
  obtain ⟨init, rfl⟩ := List.getLast?_eq_some_iff.1 h
  rw [List.append_assoc]
  exact hgo init []

/-- A text can be cut where one of its lines begins. -/
theorem exists_of_lines_eq_append {ls ms : List (List Char)} (h : lines cs = ls ++ ms) (hms : ms ≠ []) :
    ∃ first rest, cs = first ++ rest ∧ (first = [] ∨ first.getLast? = some '\n') ∧ lines first = ls ∧ lines rest = ms := by
  induction ls generalizing cs with
  | nil => exact ⟨[], cs, rfl, .inl rfl, rfl, h⟩
  | cons l ls ih =>
    by_cases hfeed : '\n' ∈ cs
    · obtain ⟨line, more, rfl, hline⟩ := List.eq_append_cons_of_mem hfeed
      rw [lines_cons hline] at h
      obtain ⟨hl, hmore⟩ := List.cons.inj h
      obtain ⟨first, rest, rfl, hfirst, hlines, hrest⟩ := ih hmore
      refine ⟨line ++ '\n' :: first, rest, by rw [List.append_assoc]; rfl, .inr ?_, ?_, hrest⟩
      · rw [List.getLast?_append, List.getLast?_cons]
        rcases hfirst with rfl | hfirst
        · rfl
        · rw [hfirst]
          rfl
      · rw [lines_cons hline, hl, hlines]
    · -- a text without a line feed has no second line
      have hone : (lines cs).length ≤ 1 := by
        have hgo : lines (cs ++ []) = lines.go (cs.reverse ++ []) [] := go_append hfeed []
        rw [List.append_nil] at hgo
        rw [hgo, lines.go]
        split
        · exact Nat.zero_le 1
        · exact Nat.le_refl 1
      have hpos := List.length_pos_of_ne_nil hms
      rw [h, List.length_append, List.length_cons] at hone
      omega

/-- No line holds a line feed. -/
theorem feed_not_mem_lines (h : l ∈ lines cs) : '\n' ∉ l := mem_go List.not_mem_nil h

/-! ### Trimming -/

/-- There are no blank characters at the ends of the text. -/
structure Trimmed (cs : List Char) : Prop where
  head : ∀ c, cs.head? = some c → isBlank c = false
  last : ∀ c, cs.getLast? = some c → isBlank c = false

private theorem dropWhile_of_head (h : ∀ c, cs.head? = some c → isBlank c = false) : cs.dropWhile isBlank = cs := by
  cases cs with
  | nil => rfl
  | cons c cs =>
    have hc := h c rfl
    rw [List.dropWhile_cons_of_neg (by rw [hc]; exact Bool.false_ne_true)]

private theorem head_dropWhile (h : (cs.dropWhile isBlank).head? = some c) : isBlank c = false := by
  have hnot := List.head?_dropWhile_not isBlank cs
  rw [h] at hnot
  exact hnot

private theorem trimEnd_of_last (h : ∀ c, cs.getLast? = some c → isBlank c = false) : trimEnd cs = cs := by
  rw [trimEnd, dropWhile_of_head fun c hc => h c (List.head?_reverse ▸ hc), List.reverse_reverse]

private theorem trimEnd_isPrefix (cs : List Char) : trimEnd cs <+: cs := by
  have hsuffix := List.reverse_prefix.2 (List.dropWhile_suffix (l := cs.reverse) isBlank)
  rwa [List.reverse_reverse] at hsuffix

theorem trim_isInfix (cs : List Char) : trim cs <:+: cs :=
  (trimEnd_isPrefix _).isInfix.trans (List.dropWhile_suffix isBlank).isInfix

/-- What is left of a text when it is trimmed. -/
theorem trimmed_trim (cs : List Char) : Trimmed (trim cs) := by
  constructor
  · intro c hc
    obtain ⟨rest, hrest⟩ := trimEnd_isPrefix (cs.dropWhile isBlank)
    have hhead : (cs.dropWhile isBlank).head? = some c := by
      rw [← hrest, List.head?_append]
      exact Option.or_eq_some_iff.2 (.inl hc)
    exact head_dropWhile hhead
  · intro c hc
    rw [trim, trimEnd, List.getLast?_reverse] at hc
    exact head_dropWhile hc

/-- Trimming takes blank characters away, and nothing else. -/
theorem trim_append (hpre : ∀ c ∈ pre, isBlank c = true) (hcs : Trimmed cs) : trim (pre ++ cs) = cs := by
  rw [trim, List.dropWhile_append_of_pos hpre, dropWhile_of_head hcs.head, trimEnd_of_last hcs.last]

theorem isBlank_space : ∀ c ∈ [' '], isBlank c = true := List.forall_mem_singleton.2 rfl

theorem Trimmed.trim_eq (h : Trimmed cs) : trim cs = cs := by
  rw [trim, dropWhile_of_head h.head, trimEnd_of_last h.last]

/-- A text is trimmed if its beginning and its end are. -/
theorem trimmed_append_singleton (hhead : ∀ d, (cs ++ [c]).head? = some d → isBlank d = false)
    (hc : isBlank c = false) : Trimmed (cs ++ [c]) := by
  refine ⟨hhead, fun d hd => ?_⟩
  rw [List.getLast?_append, List.getLast?_singleton, Option.some_or, Option.some.injEq] at hd
  exact hd ▸ hc

theorem Trimmed.append (hcs : Trimmed cs) (hds : Trimmed ds) (h : cs ≠ []) (h' : ds ≠ []) (c : Char) :
    Trimmed (cs ++ c :: ds) := by
  constructor
  · intro d hd
    rw [List.head?_append_of_ne_nil _ h] at hd
    exact hcs.head d hd
  · intro d hd
    rw [List.getLast?_append, List.getLast?_cons_of_ne_nil h'] at hd
    obtain ⟨e, he⟩ := Option.ne_none_iff_exists'.1 (mt List.getLast?_eq_none_iff.1 h')
    rw [he, Option.some_or, Option.some.injEq] at hd
    exact hds.last d (hd ▸ he)

/-! ### Comments -/

/-- There are no two slashes in a row. -/
def Unslashed (cs : List Char) : Prop := cs.IsChain fun c d => ¬(c = '/' ∧ d = '/')

theorem unslashed_untilSlashes (cs : List Char) : Unslashed (untilSlashes cs) := by
  unfold Unslashed
  induction cs with
  | nil => exact .nil
  | cons c cs ih =>
    unfold untilSlashes
    split
    · exact .nil
    · rename_i hnot
      refine List.isChain_cons.2 ⟨fun d hd hslashes => hnot ⟨hslashes.1, ?_⟩, ih⟩
      -- the first character of what is kept is the first one there was
      cases cs with
      | nil => cases hd
      | cons e cs =>
        unfold untilSlashes at hd
        split at hd
        · cases hd
        · rw [← hslashes.2]
          exact hd

theorem Unslashed.untilSlashes_eq (h : Unslashed cs) : untilSlashes cs = cs := by
  induction cs with
  | nil => rfl
  | cons c cs ih =>
    have hchain := List.isChain_cons.1 h
    unfold untilSlashes
    rw [if_neg, ih hchain.2]
    rintro ⟨rfl, hd⟩
    exact hchain.1 '/' hd ⟨rfl, rfl⟩

theorem untilSlashes_isInfix (cs : List Char) : untilSlashes cs <:+: cs := by
  refine List.IsPrefix.isInfix ?_
  induction cs with
  | nil => exact List.prefix_rfl
  | cons c cs ih =>
    unfold untilSlashes
    split
    · exact List.nil_prefix
    · exact List.cons_prefix_cons.2 ⟨rfl, ih⟩

theorem unslashed_of_not_mem (h : '/' ∉ cs) : Unslashed cs := by
  induction cs with
  | nil => exact .nil
  | cons c cs ih =>
    rw [List.mem_cons, not_or] at h
    exact List.isChain_cons.2 ⟨fun d _ hslashes => h.1 hslashes.1.symm, ih h.2⟩

/-- Texts that are put together have two slashes in a row only where they did before, or where they meet. -/
theorem Unslashed.append (hcs : Unslashed cs) (hds : Unslashed ds)
    (h : cs.getLast? ≠ some '/' ∨ ds.head? ≠ some '/') : Unslashed (cs ++ ds) := by
  refine List.isChain_append.2 ⟨hcs, hds, ?_⟩
  rintro c hc d hd ⟨rfl, rfl⟩
  rcases h with h | h
  · exact h hc
  · exact h hd

/-! ### Beginnings and ends -/

private theorem bne_of_not_mem (h : mark ∉ cs) : ∀ c ∈ cs, (c != mark) = true :=
  fun _ hc => bne_iff_ne.2 fun heq => h (heq ▸ hc)

theorem takeWhile_of_not_mem (h : mark ∉ cs) : cs.takeWhile (· != mark) = cs := by
  have htake : (cs ++ []).takeWhile (· != mark) = cs ++ [].takeWhile (· != mark) :=
    List.takeWhile_append_of_pos (bne_of_not_mem h)
  rwa [List.append_nil, List.takeWhile_nil, List.append_nil] at htake

theorem takeWhile_append_mark (h : mark ∉ cs) (ds : List Char) : (cs ++ mark :: ds).takeWhile (· != mark) = cs := by
  rw [List.takeWhile_append_of_pos (bne_of_not_mem h), List.takeWhile_cons_of_neg (by simp), List.append_nil]

theorem dropWhile_append_mark (h : mark ∉ cs) (ds : List Char) :
    (cs ++ mark :: ds).dropWhile (· != mark) = mark :: ds := by
  rw [List.dropWhile_append_of_pos (bne_of_not_mem h), List.dropWhile_cons_of_neg (by simp)]

theorem after?_append (pre cs : List Char) : after? pre (pre ++ cs) = some cs := by
  induction pre with
  | nil => cases cs <;> rfl
  | cons c pre ih =>
    rw [List.cons_append, after?, if_pos rfl]
    exact ih

theorem eq_append_of_after? {rest : List Char} (h : after? pre cs = some rest) : cs = pre ++ rest := by
  induction pre generalizing cs with
  | nil =>
    cases cs <;> exact Option.some.inj h
  | cons c pre ih =>
    cases cs with
    | nil => cases h
    | cons d cs =>
      unfold after? at h
      split at h
      · rename_i hcd
        rw [hcd, ih h, List.cons_append]
      · cases h

theorem after?_eq_none (h : cs.head? ≠ some c) : after? (c :: pre) cs = none := by
  cases cs with
  | nil => rfl
  | cons d cs => exact if_neg fun hcd => h (congrArg some hcd.symm)

theorem before?_append (cs : List Char) (c : Char) : before? c (cs ++ [c]) = some cs := by
  rw [before?, List.getLast?_append, List.getLast?_singleton, Option.some_or, if_pos rfl, List.dropLast_concat]

theorem before?_eq_none (h : cs.getLast? ≠ some c) : before? c cs = none := if_neg h

/-! ### Parts -/

theorem splitAtLastClose?_append (hds : ')' ∉ ds) : splitAtLastClose? (cs ++ ')' :: ds) = some (cs, ds) := by
  have hnone : splitAtLastClose? ds = none := by
    induction ds with
    | nil => rfl
    | cons c ds ih =>
      rw [List.mem_cons, not_or] at hds
      rw [splitAtLastClose?, ih hds.2]
      exact if_neg (Ne.symm hds.1)
  induction cs with
  | nil =>
    rw [List.nil_append, splitAtLastClose?, hnone]
    rfl
  | cons c cs ih => rw [List.cons_append, splitAtLastClose?, ih]

theorem partsAt_of_not_mem (h : mark ∉ cs) : partsAt mark cs = [cs] := by
  induction cs with
  | nil => rfl
  | cons c cs ih =>
    rw [List.mem_cons, not_or] at h
    rw [partsAt, if_neg (Ne.symm h.1), ih h.2]

theorem partsAt_append (h : mark ∉ cs) (ds : List Char) : partsAt mark (cs ++ mark :: ds) = cs :: partsAt mark ds := by
  induction cs with
  | nil => rw [List.nil_append, partsAt, if_pos rfl]
  | cons c cs ih =>
    rw [List.mem_cons, not_or] at h
    rw [List.cons_append, partsAt, if_neg (Ne.symm h.1), ih h.2]

theorem words_blank (h : isBlank c = true) (cs : List Char) : words (c :: cs) = words cs := by
  rw [words.eq_def]
  exact if_pos h

private theorem words_cons_blank (hc : isBlank c = false) (hds : ∀ d, ds.head? = some d → isBlank d = true) :
    words (c :: ds) = [c] :: words ds := by
  rw [words.eq_def]
  cases ds with
  | nil =>
    simp only [hc, Bool.false_eq_true, if_false]
    rfl
  | cons d ds =>
    have hd := hds d rfl
    simp only [hc, hd, if_true, Bool.false_eq_true, if_false]

private theorem words_cons_cons {d : Char} {w : List Char} {ws : List (List Char)} (hc : isBlank c = false)
    (hd : isBlank d = false) (h : words (d :: cs) = w :: ws) : words (c :: d :: cs) = (c :: w) :: ws := by
  rw [words.eq_def]
  simp only [hc, hd, Bool.false_eq_true, if_false, h]

/-- A word and what follows it, which is nothing or starts with a blank character. -/
theorem words_append (hne : cs ≠ []) (hcs : ∀ c ∈ cs, isBlank c = false)
    (hds : ∀ d, ds.head? = some d → isBlank d = true) : words (cs ++ ds) = cs :: words ds := by
  induction cs with
  | nil => exact absurd rfl hne
  | cons d cs ih =>
    have hd : isBlank d = false := hcs d List.mem_cons_self
    cases cs with
    | nil => exact words_cons_blank hd hds
    | cons e cs =>
      have he : isBlank e = false := hcs e (List.mem_cons_of_mem d List.mem_cons_self)
      have hrest := ih (List.cons_ne_nil e cs) fun c hc => hcs c (List.mem_cons_of_mem d hc)
      exact words_cons_cons hd he hrest

theorem words_of_not_blank (hne : cs ≠ []) (hcs : ∀ c ∈ cs, isBlank c = false) : words cs = [cs] := by
  have happend : words (cs ++ []) = [cs] := words_append hne hcs nofun
  rwa [List.append_nil] at happend

end Graft.Text
