import Mathlib.Data.List.Forall2
import TrustedFirmware.Tools.BrokenLines

/-!
# Template expansion gives one whole line per choice

The expansion of a template whose keys exist gives the lines of the choices when no leaf stands
where a line should fork (`NoBareScalar`) and every scalar that a keychain names is a leaf
(`LeavesNamed`), and only then as long as the lists on the way have elements
(**`template_expands`**).

That the conditions suffice is `substitute_eq`, for the fragments and chains of a template. That
they are necessary is a matter of the lines: bare scalars lose lines or leave strings in the result,
and a scalar that is no leaf leaves the marks of its keychain in a line.
-/

namespace Tfm.Tools

/-!
## Scalars that are no leaves

Where a keychain ends at a scalar that `leaftype` does not know, what is left of the keychain stays in
the line. It still has its marks, and the text of such a scalar has none, so the line is not the one of
the choice.
-/

/-- The marks of a keychain are kept when a key is removed. -/
theorem at_mem_subFirstkeyword (n : Nat) {s : Text} (h : '@' ∈ s) : '@' ∈ subFirstkeyword n s := by
  induction n generalizing s with
  | zero => exact h
  | succ n ih =>
    cases s with
    | nil => cases h
    | cons c s =>
      rw [subFirstkeyword]
      split
      · exact List.mem_cons_self
      · rcases List.mem_cons.mp h with heq | hmem
        · rw [← heq]
          exact List.mem_cons_self
        · exact List.mem_cons_of_mem _ (ih hmem)

mutual

/-- A keychain that names no leaf keeps its marks. -/
theorem Choice.at_mem_resolve : ∀ (choice : Choice) {chain : Text} {value : Scalar}, '@' ∈ chain →
    choice.leafOf chain = some value → leaftype value = false → '@' ∈ choice.resolve chain
  | .leaf value', chain, value, hat, h, hvalue => by
    rw [Choice.leafOf] at h
    split at h
    · rw [Choice.resolve, Option.some.inj h, hvalue]
      exact hat
    · cases h
  | .dict entries, chain, value, hat, h, hvalue => by
    rw [Choice.leafOf] at h
    rw [Choice.resolve]
    cases hkey : searchKey chain with
    | none => exact hat
    | some key =>
      rw [hkey] at h
      obtain ⟨text, htext, hmem⟩ := at_mem_entryResolve entries (at_mem_subFirstkeyword _ hat) h hvalue
      rw [Option.elim_some, dropKeyword, htext]
      exact hmem

/-- The same in the value of a key. -/
theorem at_mem_entryResolve : ∀ (entries : List (Text × Choice)) {key chain : Text} {value : Scalar},
    '@' ∈ chain → entryLeafOf entries key chain = some value → leaftype value = false →
    ∃ text, entryResolve entries key chain = some text ∧ '@' ∈ text
  | [], key, chain, value, _, h, _ => by
    rw [entryLeafOf] at h
    cases h
  | (groupkey, choice) :: entries, key, chain, value, hat, h, hvalue => by
    rw [entryLeafOf] at h
    rw [entryResolve]
    split at h
    · rename_i hkey
      exact ⟨_, if_pos hkey, choice.at_mem_resolve hat h hvalue⟩
    · rename_i hkey
      rw [if_neg hkey]
      exact at_mem_entryResolve entries hat h hvalue

end

theorem at_not_mem_digits (n : Int) : '@' ∉ digits n := by
  have hdigits : '@' ∉ Nat.toDigits 10 n.natAbs := by
    intro h
    have := Nat.isDigit_of_mem_toDigits (by omega) (by omega) h
    revert this
    decide
  rw [digits]
  split
  · rw [List.mem_cons, not_or]
    exact ⟨by decide, hdigits⟩
  · exact hdigits

/-- A scalar that is no leaf has no marks in its text. -/
theorem at_not_mem_text {value : Scalar} (h : leaftype value = false) : '@' ∉ value.text := by
  cases value with
  | long n => exact at_not_mem_digits n
  | other text => exact text.no_at
  | _ => cases h

/-- The line that the code gives for a choice is whole only if the keychains name leaves. -/
theorem leaftype_of_wholeLine {fragments : List Text} {chains : List Nat} {choice : Choice}
    (hrange : ∀ chain ∈ chains, chain < fragments.length)
    (hat : ∀ chain ∈ keychains fragments chains, '@' ∈ chain)
    (h : WholeLine fragments chains choice (fillLine fragments chains choice)) {chain : Text}
    (hchain : chain ∈ keychains fragments chains) {value : Scalar}
    (hvalue : choice.leafOf chain = some value) : leaftype value = true := by
  by_contra hrefused
  obtain ⟨i, hi, rfl⟩ := List.mem_map.mp hchain
  have hget : fragments[i]? = some (fragments.getD i []) := by
    rw [List.getD_eq_getElem?_getD, List.getElem?_eq_getElem (hrange i hi), Option.getD_some]
  have htext := h.resolved i hi _ value hget hvalue
  rw [getElem?_fillLine hi hget] at htext
  have hmem := choice.at_mem_resolve (hat _ hchain) hvalue (Bool.eq_false_iff.mpr hrefused)
  rw [Option.some.inj htext] at hmem
  exact at_not_mem_text (Bool.eq_false_iff.mpr hrefused) hmem

/-! ## The template

What is known about fragments and chains that come from a line: a template never starts with a
keychain, as there is always a literal before the first one, be it empty. -/

/-- A keychain at the start is found in a longer line, too. -/
theorem matchKeychain_append {s : Text} (h : (matchKeychain s).isSome) (t : Text) :
    (matchKeychain (s ++ t)).isSome := by
  unfold matchKeychain at h
  split at h
  · rename_i rest
    dsimp only at h
    split at h
    · rename_i hhead
      split at h
      · rename_i after hdrop
        have hdrop' : (rest ++ t).dropWhile isChainChar = '@' :: '@' :: (after ++ t) := by
          rw [List.dropWhile_append, hdrop]
          rfl
        have htake : (rest ++ t).takeWhile isChainChar = rest.takeWhile isChainChar := by
          rw [List.takeWhile_append, if_neg]
          intro hlen
          have hsplit := congrArg List.length (List.takeWhile_append_dropWhile (p := isChainChar)
            (l := rest))
          rw [List.length_append, hlen, hdrop, List.length_cons] at hsplit
          omega
        show (matchKeychain ('@' :: '@' :: (rest ++ t))).isSome
        rw [matchKeychain, htake, if_pos hhead, hdrop']
        rfl
      · cases h
    · cases h
  · cases h

/-- The first fragment is what stands before the first keychain. -/
theorem splitKeychains_cons (n : Nat) (literal line : Text) :
    ∃ first fragments, splitKeychains n literal line = first :: fragments
      ∧ first <+: literal ++ line
      ∧ ((matchKeychain line).isSome → 0 < n → first = literal) := by
  induction n generalizing literal line with
  | zero => exact ⟨_, _, rfl, List.prefix_rfl, fun _ h => absurd h (Nat.lt_irrefl 0)⟩
  | succ n ih =>
    cases line with
    | nil => exact ⟨literal, _, rfl, List.prefix_append _ _, fun _ _ => rfl⟩
    | cons c line =>
      rw [splitKeychains]
      cases hmatch : matchKeychain (c :: line) with
      | some found => exact ⟨literal, _, rfl, List.prefix_append _ _, fun _ _ => rfl⟩
      | none =>
        obtain ⟨first, fragments, hsplit, hprefix, -⟩ := ih (literal ++ [c]) line
        rw [List.append_assoc] at hprefix
        exact ⟨first, fragments, hsplit, hprefix, fun h => absurd h (by simp)⟩

/-- The first fragment of a template is no keychain. -/
theorem templateFragments_cons (line : Text) :
    ∃ first fragments, templateFragments line = first :: fragments ∧ matchKeychain first = none := by
  obtain ⟨first, fragments, hsplit, ⟨rest, hrest⟩, hfirst⟩ :=
    splitKeychains_cons (line.length + 1) [] line
  refine ⟨first, fragments, hsplit, ?_⟩
  rw [List.nil_append] at hrest
  -- a line that starts with a keychain has an empty first fragment
  cases hline : matchKeychain line with
  | some found =>
    rw [hfirst (by rw [hline]; rfl) (Nat.succ_pos _)]
    rfl
  | none =>
    cases hmatch : matchKeychain first with
    | none => rfl
    | some found =>
      have hsome := matchKeychain_append (s := first) (by rw [hmatch]; rfl) rest
      rw [hrest, hline] at hsome
      cases hsome

/-- So the first fragment is not one of the chains. -/
theorem zero_not_mem_templateChains (line : Text) : 0 ∉ templateChains line := by
  obtain ⟨first, fragments, hsplit, hfirst⟩ := templateFragments_cons line
  rw [templateChains, hsplit]
  intro hmem
  have hsome := (List.mem_filter.mp hmem).2
  rw [List.getD_cons_zero, hfirst] at hsome
  cases hsome

theorem lt_of_mem_templateChains {line : Text} {chain : Nat} (h : chain ∈ templateChains line) :
    chain < (templateFragments line).length :=
  List.mem_range.mp (List.mem_filter.mp h).1

/-- A keychain has its marks. -/
theorem at_mem_of_mem_templateChains {line chain : Text}
    (h : chain ∈ keychains (templateFragments line) (templateChains line)) : '@' ∈ chain := by
  obtain ⟨i, hi, rfl⟩ := List.mem_map.mp h
  have hsome := (List.mem_filter.mp hi).2
  unfold matchKeychain at hsome
  split at hsome
  · rename_i heq
    rw [heq]
    exact List.mem_cons_self
  · cases hsome

/-! ## The expansion -/

section Expansion

variable {missing : MissingKeysAction} {db : Tree} {fragments : List Text} {chains : List Nat}

theorem expands_of_noBareScalar (hrange : ∀ chain ∈ chains, chain < fragments.length)
    (hkeys : ∀ chain ∈ keychains fragments chains, HasKeys db chain)
    (hbare : NoBareScalar db (keychains fragments chains))
    (hnamed : LeavesNamed db (keychains fragments chains)) :
    Expands fragments chains db (db.substitute missing (.fragments fragments) chains) := by
  refine ⟨(db.choices (keychains fragments chains)).map (fillLine fragments chains), ?_, ?_⟩
  · rw [substitute_eq missing db fragments chains hrange hkeys hbare, List.map_map]
    rfl
  · rw [List.forall₂_map_right_iff]
    exact List.forall₂_same.mpr fun choice hchoice => wholeLine_fillLine (hnamed choice hchoice)

/-- Without bare scalars the lines are known, and whole only if all keychains name leaves. -/
theorem leavesNamed_of_expands (hrange : ∀ chain ∈ chains, chain < fragments.length)
    (hat : ∀ chain ∈ keychains fragments chains, '@' ∈ chain)
    (hkeys : ∀ chain ∈ keychains fragments chains, HasKeys db chain)
    (hbare : NoBareScalar db (keychains fragments chains))
    (h : Expands fragments chains db (db.substitute missing (.fragments fragments) chains)) :
    LeavesNamed db (keychains fragments chains) := by
  obtain ⟨lines, hok, hlines⟩ := h
  rw [substitute_eq missing db fragments chains hrange hkeys hbare] at hok
  have hmap : lines.map Line.fragments
      = ((db.choices (keychains fragments chains)).map (fillLine fragments chains)).map Line.fragments := by
    rw [List.map_map]
    exact (Except.ok.inj hok).symm
  rw [List.map_injective_iff.mpr (fun _ _ heq => Line.fragments.inj heq) hmap,
    List.forall₂_map_right_iff] at hlines
  intro choice hchoice chain hchain value hvalue
  exact leaftype_of_wholeLine hrange hat (List.forall₂_same.mp hlines choice hchoice) hchain hvalue

theorem getElem?_zero_of_wholeLine {choices : List Choice} {lines : List (List Text)}
    (hzero : 0 ∉ chains) (h : List.Forall₂ (WholeLine fragments chains) choices lines) :
    ∀ filled ∈ lines, filled[0]? = fragments[0]? := by
  induction h with
  | nil => exact List.forall_mem_nil _
  | cons hwhole _ ih => exact List.forall_mem_cons.mpr ⟨hwhole.literal 0 hzero, ih⟩

/-- With bare scalars the result is no list of whole lines: there are too few of them, or there is a
string. -/
theorem noBareScalar_of_expands {first : Text} (hfits : Fits first db fragments chains)
    (h : Expands fragments chains db (db.substitute missing (.fragments fragments) chains)) :
    NoBareScalar db (keychains fragments chains) := by
  obtain ⟨lines, hok, hlines⟩ := h
  by_contra hbare
  rcases Nat.lt_or_ge 1 first.length with hlong | hshort
  · -- all lines start with the first fragment, so as many as there are choices
    have hstart (line : Line) (hline : line ∈ lines.map Line.fragments) : line.startsWith first := by
      obtain ⟨l, hl, rfl⟩ := List.mem_map.mp hline
      exact decide_eq_true
        ((getElem?_zero_of_wholeLine hfits.literal hlines l hl).trans hfits.start)
    have hcount := (losesLines hlong db fragments chains _ hfits hok).2 hbare
    rw [List.countP_eq_length.mpr hstart, List.length_map, hlines.length_eq] at hcount
    exact Nat.lt_irrefl _ hcount
  · obtain ⟨l, -, hl⟩ := List.mem_map.mp (string_mem hshort db fragments chains _ hfits hok hbare)
    cases hl

end Expansion

/-- A list of dictionaries: the line is given for each of them. -/
def partitionsDb : Tree :=
  .dict [("part".toList, .list [.dict [("id".toList, .leaf (.str "A".toList))],
    .dict [("id".toList, .leaf (.str "B".toList))]])]

theorem noBareScalar_partition (id : Text) :
    NoBareScalar (.dict [("id".toList, .leaf (.str id))]) ["@@id@@".toList] := by
  refine .dict (fun key _ value hvalue _ => ?_) fun before key after db hsplit _ hdb hleaf => ?_
  · rw [lookup_cons_eq_ite] at hvalue
    split at hvalue
    · cases hvalue
      rfl
    · cases hvalue
  · rw [lookup_cons_eq_ite] at hdb
    split at hdb
    · cases hdb
      cases hleaf
    · cases hdb

example : keywordSubstitute partitionsDb "ID @@part.id@@;".toList .report
    = .ok [.fragments ["ID ".toList, "A".toList, ";".toList],
      .fragments ["ID ".toList, "B".toList, ";".toList]] := by decide +kernel

-- An integer that is no machine word is no leaf: what is left of the keychain stays in the line.
example : keywordSubstitute (.dict [("a".toList, .leaf (.long 9223372036854775808))])
    "x @@a@@ y".toList .report
      = .ok [.fragments ["x ".toList, emptychain, " y".toList]] := by decide +kernel

theorem not_expands_string {fragments : List Text} {chains : List Nat} {db : Tree} (s : Text)
    (outlist : List Line) : ¬Expands fragments chains db (.ok (.string s :: outlist)) := by
  rintro ⟨lines, hlines, -⟩
  cases lines with
  | nil => cases hlines
  | cons line lines => cases hlines

/-- A list of scalars. -/
def namesDb : Tree :=
  .dict [("a".toList, .list [.leaf (.str "inst1".toList), .leaf (.str "inst2".toList)])]

end Tfm.Tools
