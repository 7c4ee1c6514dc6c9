import Mathlib.Algebra.Ring.Nat
import TrustedFirmware.Tools.Expansion

/-!
# Broken lines

A scalar that is no value of a dictionary gives the fragments of the line, as strings, instead of
the line. The rest of the expansion takes these strings for lines: it indexes their characters.
Where the first fragment has at most one character, it is too short for that, and the expansion
stops with an exception unless nothing is left to do (**`string_mem`**). Where it has more, no line
that is made of characters starts with it, so that whole lines are missing in the result
(**`losesLines`**).

Both are shown for runs that end without an exception, by induction over the database. The first
fragment is never a keychain, which makes it a mark that every whole line has.
-/

namespace Tfm.Tools

/-! ## Runs without an exception

What follows from a result, with nothing known about the lines that went in. -/

theorem bind_eq_ok {α β : Type} {x : Except PyErr α} {f : α → Except PyErr β} {b : β}
    (h : (x >>= f) = .ok b) : ∃ a, x = .ok a ∧ f a = .ok b := by
  cases x with
  | error e => cases h
  | ok a => exact ⟨a, rfl, h⟩

section ExtendAll

variable {α : Type} {f : α → Except PyErr (List Line)} {as : List α} {outlist : List Line}

theorem exists_of_mem_extendAll (h : extendAll f as = .ok outlist) {line : Line}
    (hline : line ∈ outlist) : ∃ a ∈ as, ∃ lines, f a = .ok lines ∧ line ∈ lines := by
  induction as generalizing outlist with
  | nil =>
    cases h
    cases hline
  | cons a as ih =>
    obtain ⟨lines, hlines, h⟩ := bind_eq_ok h
    obtain ⟨rest, hrest, h⟩ := bind_eq_ok h
    cases h
    rcases List.mem_append.mp hline with hmem | hmem
    · exact ⟨a, List.mem_cons_self, lines, hlines, hmem⟩
    · obtain ⟨a', ha', h'⟩ := ih hrest hmem
      exact ⟨a', List.mem_cons_of_mem _ ha', h'⟩

/-- Every argument has its lines in the result. -/
theorem subset_of_extendAll (h : extendAll f as = .ok outlist) {a : α} (ha : a ∈ as) :
    ∃ lines, f a = .ok lines ∧ lines ⊆ outlist := by
  induction as generalizing outlist with
  | nil => cases ha
  | cons a' as ih =>
    obtain ⟨lines, hlines, h⟩ := bind_eq_ok h
    obtain ⟨rest, hrest, h⟩ := bind_eq_ok h
    cases h
    rcases List.mem_cons.mp ha with rfl | hmem
    · exact ⟨lines, hlines, List.subset_append_left _ _⟩
    · obtain ⟨lines', hlines', hsub⟩ := ih hrest hmem
      exact ⟨lines', hlines', List.Subset.trans hsub (List.subset_append_right _ _)⟩

/-- Bounds on the results add up, and one that is strict makes the sum strict. -/
theorem countP_extendAll {p : Line → Bool} {n : α → Nat} (h : extendAll f as = .ok outlist)
    (hle : ∀ a ∈ as, ∀ lines, f a = .ok lines → lines.countP p ≤ n a) :
    outlist.countP p ≤ (as.map n).sum
      ∧ ((∃ a ∈ as, ∀ lines, f a = .ok lines → lines.countP p < n a) →
        outlist.countP p < (as.map n).sum) := by
  induction as generalizing outlist with
  | nil =>
    cases h
    refine ⟨Nat.le_refl _, ?_⟩
    rintro ⟨a, ha, -⟩
    cases ha
  | cons a as ih =>
    obtain ⟨lines, hlines, h⟩ := bind_eq_ok h
    obtain ⟨rest, hrest, h⟩ := bind_eq_ok h
    cases h
    have hfirst := hle a List.mem_cons_self lines hlines
    obtain ⟨hsum, hstrict⟩ := ih hrest fun a' ha' => hle a' (List.mem_cons_of_mem _ ha')
    rw [List.countP_append, List.map_cons, List.sum_cons]
    refine ⟨by omega, ?_⟩
    rintro ⟨a', ha', hlt⟩
    rcases List.mem_cons.mp ha' with rfl | hmem
    · have := hlt lines hlines
      omega
    · have := hstrict ⟨a', hmem, hlt⟩
      omega

end ExtendAll

/-- The same number for every element of a kind. -/
theorem sum_map_ite {α : Type} (q : α → Bool) (n : Nat) (as : List α) :
    (as.map fun a => if q a then n else 0).sum = as.countP q * n := by
  induction as with
  | nil => simp
  | cons a as ih =>
    rw [List.map_cons, List.sum_cons, ih, List.countP_cons]
    split
    · rw [Nat.add_mul, Nat.one_mul, Nat.add_comm]
    · simp

/-! ## What is changed

Whatever the database is, a substitution changes the fragments of its chains only. -/

section SameOff

variable {chains chains' : List Nat} {l l' l'' : List Text}

theorem SameOff.refl : SameOff chains l l := ⟨rfl, fun _ _ => rfl⟩

theorem SameOff.trans (h : SameOff chains l l') (h' : SameOff chains l' l'') : SameOff chains l l'' :=
  ⟨h'.length.trans h.length, fun i hi => (h'.fragment i hi).trans (h.fragment i hi)⟩

theorem SameOff.mono (h : SameOff chains l l') (hsub : chains ⊆ chains') : SameOff chains' l l' :=
  ⟨h.length, fun i hi => h.fragment i fun hmem => hi (hsub hmem)⟩

theorem sameOff_setItem {chain : Nat} {fragment : Text} (hmem : chain ∈ chains)
    (h : setItem l chain fragment = .ok l') : SameOff chains l l' := by
  rw [setItem] at h
  split at h
  · cases h
    refine ⟨List.length_set, fun i hi => List.getElem?_set_ne ?_⟩
    rintro rfl
    exact hi hmem
  · cases h

/-- A loop over chains whose steps set items. -/
theorem sameOff_foldlM {step : List Text → Nat → Except PyErr (List Text)}
    (hstep : ∀ l chain l', chain ∈ chains' → step l chain = .ok l' → SameOff chains' l l')
    (hsub : chains ⊆ chains') (h : chains.foldlM step l = .ok l') : SameOff chains' l l' := by
  induction chains generalizing l with
  | nil =>
    cases h
    exact .refl
  | cons chain chains ih =>
    rw [List.foldlM_cons] at h
    obtain ⟨l₁, hfirst, hrest⟩ := bind_eq_ok h
    exact (hstep l chain l₁ (hsub List.mem_cons_self) hfirst).trans
      (ih (fun c hc => hsub (List.mem_cons_of_mem _ hc)) hrest)

/-- The loop that sets the fragments of some chains. -/
theorem sameOff_setItems {fragment : Nat → Except PyErr Text}
    (h : setItems l chains fragment = .ok l') : SameOff chains l l' := by
  refine sameOff_foldlM (fun l chain l' hmem hset => ?_) (fun _ h => h) h
  obtain ⟨text, -, hset⟩ := bind_eq_ok hset
  exact sameOff_setItem hmem hset

/-- A scalar gives the fragments as strings. -/
theorem substituteLeaf_ok {value : Scalar} {templist : Line} {outlist : List Line}
    (h : substituteLeaf value templist chains = .ok outlist) :
    ∃ l, outlist = l.map .string ∧ SameOff chains templist.toList l := by
  obtain ⟨l, hfold, h⟩ := bind_eq_ok h
  cases h
  refine ⟨l, rfl, sameOff_foldlM (fun l chain l' hmem hset => ?_) (fun _ h => h) hfold⟩
  obtain ⟨fragment, -, hset⟩ := bind_eq_ok hset
  obtain ⟨text, -, hset⟩ := bind_eq_ok hset
  exact sameOff_setItem hmem hset

/-- A scalar gives what a leaf gives, or the line as it is. -/
theorem substitute_leaf_ok {missing : MissingKeysAction} {value : Scalar} {templist : Line}
    {outlist : List Line} (h : (Tree.leaf value).substitute missing templist chains = .ok outlist) :
    (leaftype value = true ∧ substituteLeaf value templist chains = .ok outlist)
      ∨ (leaftype value = false ∧ outlist = [.fragments templist.toList]) := by
  rw [Tree.substitute] at h
  split at h
  · rename_i hvalue
    exact .inl ⟨hvalue, h⟩
  · rename_i hvalue
    obtain ⟨groups, -, h⟩ := bind_eq_ok h
    split at h
    · cases h
      exact .inr ⟨Bool.eq_false_iff.mpr hvalue, rfl⟩
    · cases h

/-! ### Groups -/

/-- The chains of the groups are those that were put in. -/
theorem mem_insertChain {key : Text} {chain : Nat} {groups : List ChainGroup} {group : ChainGroup}
    (h : group ∈ insertChain key chain groups) {c : Nat} (hc : c ∈ group.2) :
    c = chain ∨ ∃ group ∈ groups, c ∈ group.2 := by
  induction groups with
  | nil =>
    rw [insertChain, List.mem_singleton] at h
    rw [h, List.mem_singleton] at hc
    exact .inl hc
  | cons first groups ih =>
    rw [insertChain] at h
    split at h
    · rcases List.mem_cons.mp h with rfl | hmem
      · rcases List.mem_append.mp hc with hc | hc
        · exact .inr ⟨first, List.mem_cons_self, hc⟩
        · exact .inl (List.mem_singleton.mp hc)
      · exact .inr ⟨group, List.mem_cons_of_mem _ hmem, hc⟩
    · rcases List.mem_cons.mp h with rfl | hmem
      · exact .inr ⟨first, List.mem_cons_self, hc⟩
      · rcases ih hmem with hc | ⟨g, hg, hc⟩
        · exact .inl hc
        · exact .inr ⟨g, List.mem_cons_of_mem _ hg, hc⟩

/-- The groups have no chains but the given ones. -/
theorem chainGroups_subset {templist : Line} {groups : List ChainGroup}
    (h : chainGroups templist chains = .ok groups) : ∀ group ∈ groups, group.2 ⊆ chains := by
  induction chains using List.reverseRecOn generalizing groups with
  | nil =>
    cases h
    simp
  | append_singleton chains chain ih =>
    rw [chainGroups, List.foldlM_append] at h
    obtain ⟨groups', hinit, h⟩ := bind_eq_ok h
    rw [List.foldlM_cons] at h
    obtain ⟨groups'', h, hlast⟩ := bind_eq_ok h
    cases hlast
    obtain ⟨fragment, -, h⟩ := bind_eq_ok h
    have hinit' := ih hinit
    intro group hgroup c hc
    split at h
    · cases h
      exact List.mem_append_left _ (hinit' group hgroup hc)
    · cases h
      rcases mem_insertChain hgroup hc with rfl | ⟨g, hg, hc⟩
      · simp
      · exact List.mem_append_left _ (hinit' g hg hc)

/-- The key lookup changes the chains of its group. -/
theorem selectGroup_ok {missing : MissingKeysAction} {db : List DictEntry} {templist : Line}
    {group : ChainGroup} {o : List Text × List Nat}
    (h : selectGroup missing db templist l group = .ok o) : SameOff group.2 l o.1 ∧ o.2 ⊆ group.2 := by
  unfold selectGroup at h
  split at h
  · obtain ⟨l', hset, h⟩ := bind_eq_ok h
    cases h
    exact ⟨sameOff_setItems hset, List.nil_subset _⟩
  · obtain ⟨l', hset, h⟩ := bind_eq_ok h
    cases h
    exact ⟨sameOff_setItems hset, fun _ h => h⟩
  · split at h
    · cases h
    · obtain ⟨l', hset, h⟩ := bind_eq_ok h
      cases h
      exact ⟨sameOff_setItems hset, List.nil_subset _⟩
    · cases h
      exact ⟨.refl, List.nil_subset _⟩

theorem selectGroups_ok {missing : MissingKeysAction} {db : List DictEntry} {templist : Line}
    {groups : List ChainGroup} (hsub : ∀ group ∈ groups, group.2 ⊆ chains)
    {o : List Text × List ChainGroup} (h : selectGroups missing db templist l groups = .ok o) :
    SameOff chains l o.1 ∧ ∀ group ∈ o.2, group.2 ⊆ chains := by
  induction groups generalizing l o with
  | nil =>
    cases h
    exact ⟨.refl, by simp⟩
  | cons group groups ih =>
    obtain ⟨o₁, hselect, h⟩ := bind_eq_ok h
    obtain ⟨o₂, hrest, h⟩ := bind_eq_ok h
    cases h
    have hgroup := hsub group List.mem_cons_self
    obtain ⟨hsame₁, hsub₁⟩ := selectGroup_ok hselect
    obtain ⟨hsame₂, hsub₂⟩ := ih (fun g hg => hsub g (List.mem_cons_of_mem _ hg)) hrest
    refine ⟨(hsame₁.mono hgroup).trans hsame₂, fun g hg => ?_⟩
    rcases List.mem_cons.mp hg with rfl | hmem
    · exact List.Subset.trans hsub₁ hgroup
    · exact hsub₂ g hmem

end SameOff

/-- A group is passed over, or all lines that are there go deeper. -/
theorem forkGroups_cons_cases {db : List DictEntry} {transient : List Text} {lines outlist : List Line}
    {group : ChainGroup} {groups : List ChainGroup}
    (h : forkGroups db transient (some lines) (group :: groups) = .ok outlist) :
    forkGroups db transient (some lines) groups = .ok outlist
      ∨ ∃ sub lines', db.lookup group.1 = some (.inr sub)
        ∧ extendAll (fun item => sub item group.2) lines = .ok lines'
        ∧ forkGroups db transient (some lines') groups = .ok outlist := by
  unfold forkGroups at h
  split at h
  · rename_i sub _ hsub
    obtain ⟨lines', hextend, h⟩ := bind_eq_ok h
    exact .inr ⟨sub, lines', hsub, hextend, h⟩
  · exact .inl h

/-! ## Lines that start with the first fragment

A mark that survives every step on a whole line, and that no step can put on anything else. -/

/-- The line is whole as far as its first fragment tells. -/
def Line.startsWith (first : Text) : Line → Bool
  | .fragments pieces => pieces[0]? = some first
  | .string _ => false

/-- Such a line is a list of fragments. -/
theorem exists_of_startsWith {first : Text} {line : Line} (h : line.startsWith first) :
    ∃ l, line = .fragments l ∧ l[0]? = some first := by
  cases line with
  | fragments l => exact ⟨l, rfl, of_decide_eq_true h⟩
  | string s => cases h

/-- Both are lists of fragments, with the same ones off the chains. -/
inductive KeepsLine (chains : List Nat) : Line → Line → Prop where
  | intro {l l' : List Text} (h : SameOff chains l l') : KeepsLine chains (.fragments l) (.fragments l')

/-- The first fragment is not one of the chains. -/
theorem KeepsLine.startsWith {chains : List Nat} {first : Text} {line line' : Line}
    (h : KeepsLine chains line line') (hzero : 0 ∉ chains) :
    line'.startsWith first = line.startsWith first := by
  cases h with
  | intro h => rw [Line.startsWith, Line.startsWith, h.fragment 0 hzero]

/-- A line that starts with a first fragment of more than one character is made from fragments: the
first item of a string is a character. -/
theorem keepsLine_of_toList {chains : List Nat} {first : Text} (hfirst : 2 ≤ first.length)
    (hzero : 0 ∉ chains) {templist : Line} {l : List Text} (hsame : SameOff chains templist.toList l)
    (hstart : (Line.fragments l).startsWith first) : KeepsLine chains templist (.fragments l) := by
  cases templist with
  | fragments pieces => exact .intro hsame
  | string s =>
    have hchar : (Line.string s).toList[0]? = some first := by
      rw [← hsame.fragment 0 hzero]
      exact of_decide_eq_true hstart
    rw [Line.toList, List.getElem?_map] at hchar
    obtain ⟨c, -, rfl⟩ := Option.map_eq_some_iff.mp hchar
    simp at hfirst

/-- A substitution makes no line that starts with the first fragment but from such a line. -/
def StartKept (first : Text) (sub : Substitution) : Prop :=
  ∀ templist chains outlist, 0 ∉ chains → sub templist chains = .ok outlist →
    ∀ line ∈ outlist, line.startsWith first → KeepsLine chains templist line

section StartKept

variable {missing : MissingKeysAction} {first : Text} {chains : List Nat}

/-- The lines of the loop come from lines that are there before it. -/
theorem startKept_forkGroups {db : List DictEntry} {transient : List Text} {groups : List ChainGroup}
    {lines outlist : List Line} (hzero : 0 ∉ chains)
    (hdb : ∀ key sub, db.lookup key = some (.inr sub) → StartKept first sub)
    (hsub : ∀ group ∈ groups, group.2 ⊆ chains)
    (h : forkGroups db transient (some lines) groups = .ok outlist) {line : Line}
    (hline : line ∈ outlist) (hstart : line.startsWith first) :
    ∃ line' ∈ lines, KeepsLine chains line' line := by
  -- on the groups, back from the last lines to the first
  induction groups generalizing lines with
  | nil =>
    cases h
    refine ⟨line, hline, ?_⟩
    cases line with
    | fragments l => exact .intro .refl
    | string s => cases hstart
  | cons group groups ih =>
    have hsub' (g : ChainGroup) (hg : g ∈ groups) : g.2 ⊆ chains := hsub g (List.mem_cons_of_mem _ hg)
    rcases forkGroups_cons_cases h with h | ⟨sub, lines', hlookup, hextend, h⟩
    · exact ih hsub' h
    · obtain ⟨line', hline', hkeeps⟩ := ih hsub' h
      obtain ⟨item, hitem, o, ho, hmem⟩ := exists_of_mem_extendAll hextend hline'
      have hgroup := hsub group List.mem_cons_self
      have hstart' : line'.startsWith first := by
        rw [← hkeeps.startsWith hzero]
        exact hstart
      have hkeeps' := hdb group.1 sub hlookup item group.2 o (fun h => hzero (hgroup h)) ho line' hmem
        hstart'
      refine ⟨item, hitem, ?_⟩
      cases hkeeps' with
      | intro h₁ =>
        cases hkeeps with
        | intro h₂ => exact .intro ((h₁.mono hgroup).trans h₂)

/-- No string is taken for the first fragment, if that has more than one character. -/
theorem startKept_dict {db : List DictEntry} (hfirst : 2 ≤ first.length)
    (hdb : ∀ key sub, db.lookup key = some (.inr sub) → StartKept first sub) :
    StartKept first (substituteDict missing db) := by
  intro templist chains outlist hzero h line hline hstart
  obtain ⟨groups, hgroups, h⟩ := bind_eq_ok h
  obtain ⟨selected, hselect, h⟩ := bind_eq_ok h
  obtain ⟨hsame, hsub⟩ := selectGroups_ok (chainGroups_subset hgroups) hselect
  rw [forkGroups_none] at h
  obtain ⟨line', hline', hkeeps⟩ := startKept_forkGroups hzero hdb hsub h hline hstart
  rw [List.mem_singleton.mp hline'] at hkeeps
  cases hkeeps with
  | intro hkeeps => exact keepsLine_of_toList hfirst hzero (hsame.trans hkeeps) hstart

theorem startKept_substitute (hfirst : 2 ≤ first.length) (db : Tree) :
    StartKept first (db.substitute missing) := by
  induction db using Tree.induction with
  | hleaf value =>
    intro templist chains outlist hzero h line hline hstart
    rcases substitute_leaf_ok h with ⟨-, h⟩ | ⟨-, rfl⟩
    · obtain ⟨l, rfl, -⟩ := substituteLeaf_ok h
      obtain ⟨s, -, rfl⟩ := List.mem_map.mp hline
      cases hstart
    · cases List.mem_singleton.mp hline
      exact keepsLine_of_toList hfirst hzero .refl hstart
  | hlist instances ih =>
    intro templist chains outlist hzero h line hline hstart
    rw [Tree.substitute, substituteList, substituteInstances_eq, extendAll_map] at h
    obtain ⟨db, hdb, o, ho, hmem⟩ := exists_of_mem_extendAll h hline
    exact ih db hdb templist chains o hzero ho line hmem hstart
  | hdict entries ih =>
    rw [Tree.substitute]
    refine startKept_dict hfirst fun key sub hlookup => ?_
    rw [lookup_substituteEntries] at hlookup
    obtain ⟨db, hdb, hentry⟩ := Option.map_eq_some_iff.mp hlookup
    rw [← sub_of_entry hentry]
    exact ih key db hdb

end StartKept

/-! ## Strings that are too short

A string of at most one character has no item for a chain, as chains are not the first fragment. -/

/-- A string has no item behind its end. -/
theorem item_string {s : Text} {chain : Nat} (h : s.length ≤ chain) :
    (Line.string s).item chain = .error .indexError := by
  simp [Line.item, Line.toList, h]

/-- The loop that groups the chains looks at all of them, and a string has no items for them. -/
theorem chainGroups_string_ne_ok {s : Text} {chains : List Nat} (hne : chains ≠ [])
    (hlong : ∀ chain ∈ chains, s.length ≤ chain) (groups : List ChainGroup) :
    chainGroups (.string s) chains ≠ .ok groups := by
  intro h
  cases chains with
  | nil => exact hne rfl
  | cons chain chains =>
    rw [chainGroups, List.foldlM_cons, item_string (hlong chain List.mem_cons_self)] at h
    cases h

/-- A string is no line for chains behind its end. -/
theorem substitute_string_ne_ok (missing : MissingKeysAction) (db : Tree) :
    ∀ keychains, ListsFilled db keychains → ∀ (s : Text) (chains : List Nat), chains ≠ [] →
      (∀ chain ∈ chains, s.length ≤ chain) →
      ∀ outlist, db.substitute missing (.string s) chains ≠ .ok outlist := by
  induction db using Tree.induction with
  | hleaf value =>
    intro _ _ s chains hne hlong outlist h
    rw [Tree.substitute] at h
    split at h
    · cases chains with
      | nil => exact hne rfl
      | cons chain chains =>
        obtain ⟨l, hfold, -⟩ := bind_eq_ok h
        rw [List.foldlM_cons, item_string (hlong chain List.mem_cons_self)] at hfold
        cases hfold
    · obtain ⟨groups, hgroups, -⟩ := bind_eq_ok h
      exact chainGroups_string_ne_ok hne hlong groups hgroups
  | hlist instances ih =>
    intro keychains hfilled s chains hne hlong outlist h
    cases hfilled with
    | list hinstances hfilled =>
      rw [Tree.substitute, substituteList, substituteInstances_eq, extendAll_map] at h
      obtain ⟨db, hdb⟩ := List.exists_mem_of_ne_nil _ hinstances
      obtain ⟨lines, hlines, -⟩ := subset_of_extendAll h hdb
      exact ih db hdb keychains (hfilled db hdb) s chains hne hlong lines hlines
  | hdict entries ih =>
    intro _ _ s chains hne hlong outlist h
    obtain ⟨groups, hgroups, -⟩ := bind_eq_ok h
    exact chainGroups_string_ne_ok hne hlong groups hgroups

/-! ## Filled databases

With elements in all lists there are choices, and lines can be counted: a product over the keys. -/

theorem combinations_ne_nil {α : Type} {alternatives : List (Text × List α)}
    (h : ∀ alternative ∈ alternatives, alternative.2 ≠ []) : combinations alternatives ≠ [] := by
  induction alternatives with
  | nil => exact List.cons_ne_nil _ _
  | cons alternative alternatives ih =>
    obtain ⟨a, ha⟩ := List.exists_mem_of_ne_nil _ (h alternative List.mem_cons_self)
    obtain ⟨entries, hentries⟩ := List.exists_mem_of_ne_nil _
      (ih fun alternative' h' => h alternative' (List.mem_cons_of_mem _ h'))
    exact List.ne_nil_of_mem (List.mem_flatMap.mpr ⟨a, ha, List.mem_map_of_mem hentries⟩)

theorem length_combinations_cons {α : Type} (key : Text) (as : List α) (rest : List (Text × List α)) :
    (combinations ((key, as) :: rest)).length = as.length * (combinations rest).length := by
  rw [combinations, List.length_flatMap]
  simp

/-- There are choices if all lists have elements. -/
theorem choices_ne_nil (db : Tree) : ∀ chains : List Text, (∀ chain ∈ chains, HasKeys db chain) →
    ListsFilled db chains → db.choices chains ≠ [] := by
  induction db using Tree.induction with
  | hleaf value =>
    intro chains _ _
    rw [Tree.choices]
    exact List.cons_ne_nil _ _
  | hlist instances ih =>
    intro chains hkeys hfilled
    cases hfilled with
    | list hne hfilled =>
      obtain ⟨db, hdb⟩ := List.exists_mem_of_ne_nil _ hne
      have hkeys' (chain : Text) (hchain : chain ∈ chains) : HasKeys db chain := by
        cases hkeys chain hchain with
        | list h => exact h db hdb
      obtain ⟨choice, hchoice⟩ := List.exists_mem_of_ne_nil _ (ih db hdb chains hkeys' (hfilled db hdb))
      rw [Tree.choices, instancesChoices_eq]
      exact List.ne_nil_of_mem (List.mem_flatMap.mpr ⟨db, hdb, hchoice⟩)
  | hdict entries ih =>
    intro chains hkeys hfilled
    cases hfilled with
    | dict hfilled =>
      rw [Tree.choices]
      refine fun h => combinations_ne_nil (fun alternative halternative => ?_) (List.map_eq_nil_iff.mp h)
      obtain ⟨key, hkey, rfl⟩ := List.mem_map.mp halternative
      obtain ⟨db, hdb, hbehind⟩ := exists_db_of_hasKeys hkeys hkey
      rw [entryChoices_of_lookup hdb]
      exact ih key db hdb _ hbehind (hfilled key hkey db hdb)

/-! ### Lines on their way

`Fits` is what the induction over the database carries along: the line still starts with the first
fragment, and its keychains fit the database. -/

/-- What holds for a line on its way through the database. -/
structure Fits (first : Text) (db : Tree) (fragments : List Text) (chains : List Nat) : Prop where
  range : ∀ chain ∈ chains, chain < fragments.length
  start : fragments[0]? = some first
  literal : 0 ∉ chains
  keys : ∀ chain ∈ keychains fragments chains, HasKeys db chain
  filled : ListsFilled db (keychains fragments chains)

section Fits

variable {first : Text} {line : List Text} {chains : List Nat}

/-- A line for a list is one for its elements. -/
theorem Fits.of_mem {instances : List Tree} (h : Fits first (.list instances) line chains) {db : Tree}
    (hdb : db ∈ instances) : Fits first db line chains := by
  refine ⟨h.range, h.start, h.literal, fun chain hchain => ?_, ?_⟩
  · cases h.keys chain hchain with
    | list h => exact h db hdb
  · cases h.filled with
    | list _ h => exact h db hdb

/-- The line for the value of a key, after the key lookup. -/
theorem Fits.of_lookup {entries : List (Text × Tree)} (h : Fits first (.dict entries) line chains)
    {key : Text} {db : Tree} (hkey : key ∈ chainKeys (keychains line chains))
    (hdb : entries.lookup key = some db) (hleaf : db.isLeaf = false) {line' : List Text}
    (hstart : line'[0]? = some first)
    (hagrees : AgreesOn (keyAt line) chains (lookedUpLine entries line chains) [key] line') :
    Fits first db line' (chainsWith (keyAt line) chains key)
      ∧ keychains line' (chainsWith (keyAt line) chains key)
        = chainsBehind key (keychains line chains) := by
  have hbehind := hagrees.keychains_eq
  rw [keychains_lookedUpLine hdb hleaf h.range] at hbehind
  obtain ⟨db', hdb', hkeys⟩ := exists_db_of_hasKeys h.keys hkey
  obtain rfl : db = db' := Option.some.inj (hdb.symm.trans hdb')
  refine ⟨⟨fun chain hchain => ?_, hstart, fun hzero => h.literal (List.mem_filter.mp hzero).1, ?_, ?_⟩,
    hbehind⟩
  · rw [hagrees.length, length_lookedUpLine]
    exact h.range chain (List.mem_filter.mp hchain).1
  · rw [hbehind]
    exact hkeys
  · rw [hbehind]
    cases h.filled with
    | dict hfilled => exact hfilled key hkey db hdb

end Fits

/-! ### Leaves that were printed

A run that ends without an exception has shown that `str()` takes the leaves. -/

theorem printable_of_pyStr {value : Scalar} {text : Text} (h : value.pyStr = .ok text) :
    value.Printable := by
  cases value with
  | unicode s =>
    rw [Scalar.pyStr] at h
    split at h
    · rename_i hascii
      rw [Scalar.Printable, Scalar.pyStr, if_pos hascii]
      rfl
    · cases h
  | str s => rfl
  | int n => rfl
  | bool b => rfl
  | long n => rfl
  | other text => rfl

/-- The key lookup has applied `str()` to every leaf it found. -/
theorem printable_of_selectGroups {missing : MissingKeysAction} {db : List DictEntry} {templist : Line}
    {transient : List Text} {groups : List ChainGroup} {o : List Text × List ChainGroup}
    (h : selectGroups missing db templist transient groups = .ok o) {group : ChainGroup}
    (hgroup : group ∈ groups) (hne : group.2 ≠ []) {value : Scalar}
    (hvalue : db.lookup group.1 = some (.inl value)) : value.Printable := by
  induction groups generalizing transient o with
  | nil => cases hgroup
  | cons group' groups ih =>
    obtain ⟨o₁, hselect, h⟩ := bind_eq_ok h
    obtain ⟨o₂, hrest, -⟩ := bind_eq_ok h
    rcases List.mem_cons.mp hgroup with rfl | hmem
    · unfold selectGroup at hselect
      rw [hvalue] at hselect
      obtain ⟨l, hset, -⟩ := bind_eq_ok hselect
      obtain ⟨key, chains⟩ := group
      cases chains with
      | nil => exact absurd rfl hne
      | cons chain chains =>
        rw [setItems, List.foldlM_cons] at hset
        obtain ⟨l', hset, -⟩ := bind_eq_ok hset
        obtain ⟨text, htext, -⟩ := bind_eq_ok hset
        exact printable_of_pyStr htext
    · exact ih hrest hmem

section Dict

variable {missing : MissingKeysAction} {first : Text} {entries : List (Text × Tree)} {line : List Text}
  {chains : List Nat} {outlist : List Line}

/-! ### Dictionaries

Some value that goes deeper has bare scalars. The loop over the groups comes to it with a line,
unless a string has stopped it before. -/

/-- The value of a key has bare scalars. -/
def BranchFails (entries : List (Text × Tree)) (keychains : List Text) (key : Text) : Prop :=
  ∃ db, entries.lookup key = some db ∧ db.isLeaf = false
    ∧ ¬NoBareScalar db (chainsBehind key keychains)

/-- The key lookup does not change the first fragment. -/
theorem Fits.start_lookedUpLine (h : Fits first (.dict entries) line chains) :
    (lookedUpLine entries line chains)[0]? = some first := by
  rw [getElem?_lookedUpLine_of_no_key fun hmem => absurd hmem h.literal]
  exact h.start

/-- The expansion has a result, so `str()` took all leaves of the dictionary. -/
theorem Fits.printable (h : Fits first (.dict entries) line chains)
    (hok : (Tree.dict entries).substitute missing (.fragments line) chains = .ok outlist) (key : Text)
    (hkey : key ∈ chainKeys (keychains line chains)) (value : Scalar)
    (hvalue : entries.lookup key = some (.leaf value)) (hleaf : leaftype value = true) :
    value.Printable := by
  obtain ⟨groups, hgroups, hok⟩ := bind_eq_ok hok
  obtain ⟨selected, hselect, -⟩ := bind_eq_ok hok
  rw [chainGroups_eq h.range] at hgroups
  cases hgroups
  have hgroup : (key, chainsWith (keyAt line) chains key) ∈ groupsOf (keyAt line) chains := by
    rw [groupsOf, filterMap_keyAt]
    exact List.mem_map_of_mem hkey
  refine printable_of_selectGroups hselect hgroup (chainsWith_ne_nil hkey) ?_
  rw [lookup_substituteEntries, hvalue, Option.map_some, Tree.entry, if_pos hleaf]

/-- The expansion went through the key lookup, and what is left is the loop over the groups. -/
theorem Fits.forkGroups (h : Fits first (.dict entries) line chains)
    (hok : (Tree.dict entries).substitute missing (.fragments line) chains = .ok outlist) :
    Tools.forkGroups (substituteEntries missing entries) (lookedUpLine entries line chains)
      (some [.fragments (lookedUpLine entries line chains)])
      ((chainKeys (keychains line chains)).map fun key =>
        deeper entries (key, chainsWith (keyAt line) chains key)) = .ok outlist := by
  rw [← substituteDict_eq_forkGroups h.range h.keys (h.printable hok)]
  exact hok

/-- Bare scalars of a dictionary are bare scalars of a value that goes deeper. -/
theorem Fits.exists_branchFails (h : Fits first (.dict entries) line chains)
    (hok : (Tree.dict entries).substitute missing (.fragments line) chains = .ok outlist)
    (hbare : ¬NoBareScalar (.dict entries) (keychains line chains)) :
    ∃ key ∈ chainKeys (keychains line chains), BranchFails entries (keychains line chains) key := by
  by_contra hnone
  refine hbare (.dict (h.printable hok) fun before key after db hsplit _ hdb hleaf => ?_)
  by_contra hfails
  refine hnone ⟨key, ?_, db, hdb, hleaf, hfails⟩
  rw [hsplit]
  exact List.mem_append_right _ List.mem_cons_self

/-- The loop passes over a key with a leaf; for the others, all lines that are there go deeper. -/
theorem forkGroups_key_cases {transient : List Text} {keyOf : Nat → Option Text} {key : Text}
    {keys : List Text} {lines : List Line} {db : Tree} (hdb : entries.lookup key = some db)
    (h : Tools.forkGroups (substituteEntries missing entries) transient (some lines)
      ((key :: keys).map fun key => deeper entries (key, chainsWith keyOf chains key)) = .ok outlist)
    (hne : chainsWith keyOf chains key ≠ []) :
    (db.isLeaf = true ∧ Tools.forkGroups (substituteEntries missing entries) transient (some lines)
      (keys.map fun key => deeper entries (key, chainsWith keyOf chains key)) = .ok outlist)
    ∨ ∃ lines', db.isLeaf = false
      ∧ extendAll (fun item => db.substitute missing item (chainsWith keyOf chains key)) lines
        = .ok lines'
      ∧ Tools.forkGroups (substituteEntries missing entries) transient (some lines')
        (keys.map fun key => deeper entries (key, chainsWith keyOf chains key)) = .ok outlist := by
  rw [List.map_cons] at h
  cases hleaf : db.isLeaf with
  | true =>
    have hdeeper : (deeper entries (key, chainsWith keyOf chains key)).2 = [] := by
      simp [deeper, hdb, hleaf]
    rw [forkGroups_skip hdeeper] at h
    exact .inl ⟨rfl, h⟩
  | false =>
    have hdeeper : deeper entries (key, chainsWith keyOf chains key)
        = (key, chainsWith keyOf chains key) := by
      simp [deeper, hdb, hleaf]
    have hsub : (substituteEntries missing entries).lookup key = some (.inr (db.substitute missing)) := by
      rw [lookup_substituteEntries, hdb, Option.map_some, entry_of_not_leaf hleaf]
    rw [hdeeper, forkGroups_branch hne hsub] at h
    obtain ⟨lines', hextend, h⟩ := bind_eq_ok h
    exact .inr ⟨lines', rfl, hextend, h⟩

/-- The value that has them is the one that is found. -/
theorem BranchFails.not_leaf {keychains : List Text} {key : Text} {db : Tree}
    (h : BranchFails entries keychains key) (hdb : entries.lookup key = some db) :
    db.isLeaf = false ∧ ¬NoBareScalar db (chainsBehind key keychains) := by
  obtain ⟨db', hdb', h⟩ := h
  rw [hdb] at hdb'
  cases hdb'
  exact h

/-- Once the first fragment is there as a string, nothing can go deeper any more. -/
theorem Fits.string_mem_forkGroups (h : Fits first (.dict entries) line chains)
    (hfirst : first.length ≤ 1)
    (hbranch : ∀ key db, entries.lookup key = some db → ∀ line' chains' outlist',
      Fits first db line' chains' → db.substitute missing (.fragments line') chains' = .ok outlist' →
      ¬NoBareScalar db (keychains line' chains') → .string first ∈ outlist')
    {keys : List Text} (hnd : keys.Nodup) (hkeys : keys ⊆ chainKeys (keychains line chains))
    {lines : List Line}
    (hlines : .string first ∈ lines
      ∨ (∃ key ∈ keys, BranchFails entries (keychains line chains) key)
        ∧ ∃ line', .fragments line' ∈ lines ∧ line'[0]? = some first
          ∧ AgreesOn (keyAt line) chains (lookedUpLine entries line chains) keys line')
    (hfork : Tools.forkGroups (substituteEntries missing entries) (lookedUpLine entries line chains)
      (some lines) (keys.map fun key => deeper entries (key, chainsWith (keyAt line) chains key))
        = .ok outlist) : .string first ∈ outlist := by
  -- on the keys: until the key that fails a line is there, and from then on the string
  induction keys generalizing lines with
  | nil =>
    cases hfork
    rcases hlines with hmem | ⟨⟨key, hkey, -⟩, -⟩
    · exact hmem
    · cases hkey
  | cons key keys ih =>
    obtain ⟨hkey, hnd⟩ := List.nodup_cons.mp hnd
    have hkeys' : keys ⊆ chainKeys (keychains line chains) := fun k hk => hkeys (List.mem_cons_of_mem _ hk)
    have hmem : key ∈ chainKeys (keychains line chains) := hkeys List.mem_cons_self
    obtain ⟨db, hdb, -⟩ := exists_db_of_hasKeys h.keys hmem
    have hleft (hnot : ¬BranchFails entries (keychains line chains) key)
        (hfails : ∃ k ∈ key :: keys, BranchFails entries (keychains line chains) k) :
        ∃ k ∈ keys, BranchFails entries (keychains line chains) k :=
      ((List.exists_mem_cons_iff _ _ _).mp hfails).resolve_left hnot
    rcases forkGroups_key_cases hdb hfork (chainsWith_ne_nil hmem) with
      ⟨hleaf, hfork⟩ | ⟨lines', hleaf, hextend, hfork⟩
    · refine ih hnd hkeys' (hlines.imp id ?_) hfork
      rintro ⟨hfails, line', hline', hstart, hagrees⟩
      refine ⟨hleft (fun hfails => ?_) hfails, line', hline', hstart,
        hagrees.mono (List.subset_cons_self _ _)⟩
      rw [(hfails.not_leaf hdb).1] at hleaf
      cases hleaf
    · rcases hlines with hstring | ⟨hfails, line', hline', hstart, hagrees⟩
      · -- the string is too short for the chains of this key
        exfalso
        obtain ⟨o, ho, -⟩ := subset_of_extendAll hextend hstring
        have hfilled : ListsFilled db (chainsBehind key (keychains line chains)) := by
          cases h.filled with
          | dict hfilled => exact hfilled key hmem db hdb
        refine substitute_string_ne_ok missing db _ hfilled first _ (chainsWith_ne_nil hmem)
          (fun chain hchain => ?_) o ho
        have hchain := (List.mem_filter.mp hchain).1
        have : chain ≠ 0 := by
          rintro rfl
          exact h.literal hchain
        omega
      · obtain ⟨o, ho, hsub⟩ := subset_of_extendAll hextend hline'
        obtain ⟨hfits, hbehind⟩ := h.of_lookup hmem hdb hleaf hstart
          (hagrees.mono (List.cons_subset_cons _ (List.nil_subset _)))
        -- this key does not fail, and gives a line for the next one; or it does, and gives the
        -- string
        by_cases hbare : NoBareScalar db (keychains line' (chainsWith (keyAt line) chains key))
        · have heq := substitute_eq missing db line' _ hfits.range hfits.keys hbare
          rw [ho] at heq
          cases heq
          obtain ⟨choice, hchoice⟩ := List.exists_mem_of_ne_nil _
            (choices_ne_nil db _ hfits.keys hfits.filled)
          rw [hbehind] at hbare
          refine ih hnd hkeys' (.inr ⟨hleft (fun hfails => (hfails.not_leaf hdb).2 hbare) hfails,
            fillLine line' (chainsWith (keyAt line) chains key) choice,
            hsub (List.mem_map_of_mem hchoice), ?_, hagrees.of_sameOff hkey sameOff_updateAt⟩) hfork
          rw [fillLine, sameOff_updateAt.fragment 0 hfits.literal]
          exact hstart
        · exact ih hnd hkeys' (.inl (hsub (hbranch key db hdb line' _ o hfits ho hbare))) hfork

/-! ### Counting lines

Every key multiplies the number of whole lines by at most its number of choices, and the key that
fails by less. -/

/-- The number of combinations of the alternatives for some keys. -/
def combinationCount (entries : List (Text × Tree)) (keychains : List Text) (keys : List Text) : Nat :=
  (combinations (keys.map fun key =>
    (key, entryChoices entries key (chainsBehind key keychains)))).length

theorem combinationCount_cons {keychains : List Text} {key : Text} {db : Tree}
    (hdb : entries.lookup key = some db) (keys : List Text) :
    combinationCount entries keychains (key :: keys)
      = (db.choices (chainsBehind key keychains)).length * combinationCount entries keychains keys := by
  rw [combinationCount, List.map_cons, length_combinations_cons, entryChoices_of_lookup hdb]
  rfl

/-- With elements in all lists no factor is zero. -/
theorem Fits.combinationCount_pos (h : Fits first (.dict entries) line chains) {keys : List Text}
    (hkeys : keys ⊆ chainKeys (keychains line chains)) :
    0 < combinationCount entries (keychains line chains) keys := by
  refine List.length_pos_iff.mpr (combinations_ne_nil fun alternative halternative => ?_)
  obtain ⟨key, hkey, rfl⟩ := List.mem_map.mp halternative
  obtain ⟨db, hdb, hbehind⟩ := exists_db_of_hasKeys h.keys (hkeys hkey)
  rw [entryChoices_of_lookup hdb]
  cases h.filled with
  | dict hfilled => exact choices_ne_nil db _ hbehind (hfilled key (hkeys hkey) db hdb)

/-- No more whole lines than choices, and fewer if there are bare scalars. -/
def LosesLines (missing : MissingKeysAction) (first : Text) (db : Tree) : Prop :=
  ∀ line chains outlist, Fits first db line chains →
    db.substitute missing (.fragments line) chains = .ok outlist →
    outlist.countP (Line.startsWith first) ≤ (db.choices (keychains line chains)).length
      ∧ (¬NoBareScalar db (keychains line chains) →
        outlist.countP (Line.startsWith first) < (db.choices (keychains line chains)).length)

/-- One step of the loop over the groups. -/
theorem Fits.countP_step (h : Fits first (.dict entries) line chains) (hfirst : 2 ≤ first.length)
    {key : Text} {db : Tree} (hmem : key ∈ chainKeys (keychains line chains))
    (hdb : entries.lookup key = some db) (hleaf : db.isLeaf = false)
    (hloses : LosesLines missing first db) {keys : List Text} {lines lines' : List Line}
    (hlines : ∀ line', .fragments line' ∈ lines → line'[0]? = some first →
      AgreesOn (keyAt line) chains (lookedUpLine entries line chains) (key :: keys) line')
    (hextend : extendAll (fun item => db.substitute missing item (chainsWith (keyAt line) chains key))
      lines = .ok lines') :
    lines'.countP (Line.startsWith first) ≤ lines.countP (Line.startsWith first)
        * (db.choices (chainsBehind key (keychains line chains))).length
      ∧ (0 < lines.countP (Line.startsWith first) →
        BranchFails entries (keychains line chains) key →
        lines'.countP (Line.startsWith first) < lines.countP (Line.startsWith first)
          * (db.choices (chainsBehind key (keychains line chains))).length) := by
  have hzero : 0 ∉ chainsWith (keyAt line) chains key := fun hz => h.literal (List.mem_filter.mp hz).1
  -- a line that starts with the first fragment has the keychains of the template
  have hgood (line' : List Text) (hline' : .fragments line' ∈ lines) (hstart : line'[0]? = some first)
      (o : List Line) (ho : db.substitute missing (.fragments line') (chainsWith (keyAt line) chains key)
        = .ok o) :
      o.countP (Line.startsWith first) ≤ (db.choices (chainsBehind key (keychains line chains))).length
        ∧ (BranchFails entries (keychains line chains) key → o.countP (Line.startsWith first)
          < (db.choices (chainsBehind key (keychains line chains))).length) := by
    obtain ⟨hfits, hbehind⟩ := h.of_lookup hmem hdb hleaf hstart
      ((hlines line' hline' hstart).mono (List.cons_subset_cons _ (List.nil_subset _)))
    have hcount := hloses line' _ o hfits ho
    rw [hbehind] at hcount
    exact ⟨hcount.1, fun hfails => hcount.2 (hfails.not_leaf hdb).2⟩
  -- and from anything else no such line is made
  have hbad (item : Line) (hstart : item.startsWith first = false) (o : List Line)
      (ho : db.substitute missing item (chainsWith (keyAt line) chains key) = .ok o) :
      o.countP (Line.startsWith first) = 0 := by
    refine List.countP_eq_zero.mpr fun line' hline' hstart' => ?_
    have hkeeps := startKept_substitute hfirst db item _ o hzero ho line' hline' hstart'
    rw [hkeeps.startsWith hzero, hstart] at hstart'
    cases hstart'
  have hcount := countP_extendAll (p := Line.startsWith first)
    (n := fun item => if item.startsWith first
      then (db.choices (chainsBehind key (keychains line chains))).length else 0) hextend
    fun item hitem o ho => by
      cases hstart : item.startsWith first with
      | false => exact Nat.le_of_eq (hbad item hstart o ho)
      | true =>
        obtain ⟨line', rfl, hfirst⟩ := exists_of_startsWith hstart
        exact (hgood line' hitem hfirst o ho).1
  rw [sum_map_ite] at hcount
  refine ⟨hcount.1, fun hpos hfails => hcount.2 ?_⟩
  obtain ⟨item, hitem, hstart⟩ := List.countP_pos_iff.mp hpos
  refine ⟨item, hitem, fun o ho => ?_⟩
  rw [if_pos hstart]
  obtain ⟨line', rfl, hfirst⟩ := exists_of_startsWith hstart
  exact (hgood line' hitem hfirst o ho).2 hfails

/-- The loop over the groups, by induction on the keys. -/
theorem Fits.countP_forkGroups (h : Fits first (.dict entries) line chains)
    (hfirst : 2 ≤ first.length)
    (hloses : ∀ key db, entries.lookup key = some db → LosesLines missing first db)
    {keys : List Text} (hnd : keys.Nodup) (hkeys : keys ⊆ chainKeys (keychains line chains))
    {lines : List Line}
    (hlines : ∀ line', .fragments line' ∈ lines → line'[0]? = some first →
      AgreesOn (keyAt line) chains (lookedUpLine entries line chains) keys line')
    (hfork : Tools.forkGroups (substituteEntries missing entries) (lookedUpLine entries line chains)
      (some lines) (keys.map fun key => deeper entries (key, chainsWith (keyAt line) chains key))
        = .ok outlist) :
    outlist.countP (Line.startsWith first) ≤ lines.countP (Line.startsWith first)
        * combinationCount entries (keychains line chains) keys
      ∧ (0 < lines.countP (Line.startsWith first) →
        (∃ key ∈ keys, BranchFails entries (keychains line chains) key) →
        outlist.countP (Line.startsWith first) < lines.countP (Line.startsWith first)
          * combinationCount entries (keychains line chains) keys) := by
  induction keys generalizing lines with
  | nil =>
    cases hfork
    refine ⟨Nat.le_of_eq (Nat.mul_one _).symm, ?_⟩
    rintro - ⟨key, hkey, -⟩
    cases hkey
  | cons key keys ih =>
    obtain ⟨hkey, hnd⟩ := List.nodup_cons.mp hnd
    have hkeys' : keys ⊆ chainKeys (keychains line chains) := fun k hk => hkeys (List.mem_cons_of_mem _ hk)
    have hmem : key ∈ chainKeys (keychains line chains) := hkeys List.mem_cons_self
    obtain ⟨db, hdb, -⟩ := exists_db_of_hasKeys h.keys hmem
    have hleft (hnot : ¬BranchFails entries (keychains line chains) key)
        (hfails : ∃ k ∈ key :: keys, BranchFails entries (keychains line chains) k) :
        ∃ k ∈ keys, BranchFails entries (keychains line chains) k :=
      ((List.exists_mem_cons_iff _ _ _).mp hfails).resolve_left hnot
    rw [combinationCount_cons hdb, ← Nat.mul_assoc]
    rcases forkGroups_key_cases hdb hfork (chainsWith_ne_nil hmem) with
      ⟨hleaf, hfork⟩ | ⟨lines', hleaf, hextend, hfork⟩
    · cases db with
      | leaf value =>
        obtain ⟨hle, hlt⟩ := ih hnd hkeys' (fun line' hline' hstart =>
          (hlines line' hline' hstart).mono (List.subset_cons_self _ _)) hfork
        rw [Tree.choices, List.length_singleton, Nat.mul_one]
        refine ⟨hle, fun hpos hfails => hlt hpos (hleft (fun hfails => ?_) hfails)⟩
        rw [(hfails.not_leaf hdb).1] at hleaf
        cases hleaf
      | list instances => cases hleaf
      | dict entries => cases hleaf
    · obtain ⟨hle, hlt⟩ := h.countP_step hfirst hmem hdb hleaf (hloses key db hdb) hlines hextend
      have hzero : 0 ∉ chainsWith (keyAt line) chains key :=
        fun hz => h.literal (List.mem_filter.mp hz).1
      have hlines' (line' : List Text) (hline' : .fragments line' ∈ lines')
          (hstart : line'[0]? = some first) :
          AgreesOn (keyAt line) chains (lookedUpLine entries line chains) keys line' := by
        obtain ⟨item, hitem, o, ho, hmem'⟩ := exists_of_mem_extendAll hextend hline'
        have hkeeps := startKept_substitute hfirst db item _ o hzero ho _ hmem'
          (decide_eq_true hstart)
        cases hkeeps with
        | intro hsame =>
          have hstart' := (hsame.fragment 0 hzero).symm.trans hstart
          exact (hlines _ hitem hstart').of_sameOff hkey hsame
      obtain ⟨hle', hlt'⟩ := ih hnd hkeys' hlines' hfork
      have hpos' := h.combinationCount_pos hkeys'
      have hchoices := h.combinationCount_pos hkeys
      rw [combinationCount_cons hdb] at hchoices
      replace hchoices := Nat.pos_of_mul_pos_right hchoices
      refine ⟨Nat.le_trans hle' (Nat.mul_le_mul_right _ hle), fun hpos hfails => ?_⟩
      -- a line is lost at this key, or at a later one
      rcases Nat.lt_or_eq_of_le hle with hless | hequal
      · exact Nat.lt_of_le_of_lt hle' (Nat.mul_lt_mul_of_pos_right hless hpos')
      · rw [← hequal]
        refine hlt' ?_ (hleft (fun hkey => Nat.lt_irrefl _ (hequal ▸ hlt hpos hkey)) hfails)
        rw [hequal]
        exact Nat.mul_pos hpos hchoices

end Dict

section Necessity

variable {missing : MissingKeysAction} {first : Text}

/-- Lines are lost where the first fragment has more than one character. -/
theorem losesLines (hfirst : 2 ≤ first.length) (db : Tree) : LosesLines missing first db := by
  induction db using Tree.induction with
  | hleaf value =>
    intro line chains outlist hfits hok
    rw [Tree.choices]
    rcases substitute_leaf_ok hok with ⟨-, hok⟩ | ⟨hvalue, rfl⟩
    case inr => exact ⟨List.countP_le_length, fun hbare => absurd (.refused hvalue) hbare⟩
    obtain ⟨l, rfl, -⟩ := substituteLeaf_ok hok
    have hnone : (l.map Line.string).countP (Line.startsWith first) = 0 := by
      rw [List.countP_eq_zero]
      simp [Line.startsWith]
    rw [hnone]
    exact ⟨Nat.zero_le _, fun _ => Nat.zero_lt_one⟩
  | hlist instances ih =>
    intro line chains outlist hfits hok
    rw [Tree.substitute, substituteList, substituteInstances_eq, extendAll_map] at hok
    rw [Tree.choices, instancesChoices_eq, List.length_flatMap]
    obtain ⟨hle, hlt⟩ := countP_extendAll (p := Line.startsWith first)
      (n := fun db => (db.choices (keychains line chains)).length) hok
      fun db hdb o ho => (ih db hdb line chains o (hfits.of_mem hdb) ho).1
    refine ⟨hle, fun hbare => hlt ?_⟩
    by_contra hnone
    refine hbare (.list fun db hdb => ?_)
    by_contra hfails
    exact hnone ⟨db, hdb, fun o ho => (ih db hdb line chains o (hfits.of_mem hdb) ho).2 hfails⟩
  | hdict entries ih =>
    intro line chains outlist hfits hok
    have hone : [Line.fragments (lookedUpLine entries line chains)].countP (Line.startsWith first)
        = 1 := by
      rw [List.countP_singleton, Line.startsWith, hfits.start_lookedUpLine]
      simp
    have hlines (line' : List Text)
        (hline' : .fragments line' ∈ [Line.fragments (lookedUpLine entries line chains)])
        (_ : line'[0]? = some first) :
        AgreesOn (keyAt line) chains (lookedUpLine entries line chains)
          (chainKeys (keychains line chains)) line' := by
      cases List.mem_singleton.mp hline'
      exact ⟨rfl, fun _ _ _ _ => rfl⟩
    have hcount := hfits.countP_forkGroups hfirst ih nodup_chainKeys (fun _ h => h) hlines
      (hfits.forkGroups hok)
    rw [hone, Nat.one_mul] at hcount
    rw [Tree.choices, List.length_map]
    exact ⟨hcount.1, fun hbare => hcount.2 Nat.zero_lt_one (hfits.exists_branchFails hok hbare)⟩

/-- The first fragment is left as a string where it has no more than one character. -/
theorem string_mem (hfirst : first.length ≤ 1) (db : Tree) :
    ∀ line chains outlist, Fits first db line chains →
      db.substitute missing (.fragments line) chains = .ok outlist →
      ¬NoBareScalar db (keychains line chains) → .string first ∈ outlist := by
  induction db using Tree.induction with
  | hleaf value =>
    intro line chains outlist hfits hok hbare
    rcases substitute_leaf_ok hok with ⟨-, hok⟩ | ⟨hvalue, -⟩
    case inr => exact absurd (.refused hvalue) hbare
    obtain ⟨l, rfl, hsame⟩ := substituteLeaf_ok hok
    have hget : l[0]? = some first := by
      rw [hsame.fragment 0 hfits.literal]
      exact hfits.start
    exact List.mem_map_of_mem (List.mem_of_getElem? hget)
  | hlist instances ih =>
    intro line chains outlist hfits hok hbare
    rw [Tree.substitute, substituteList, substituteInstances_eq, extendAll_map] at hok
    obtain ⟨db, hdb, hfails⟩ : ∃ db ∈ instances, ¬NoBareScalar db (keychains line chains) := by
      by_contra hnone
      refine hbare (.list fun db hdb => ?_)
      by_contra hfails
      exact hnone ⟨db, hdb, hfails⟩
    obtain ⟨o, ho, hsub⟩ := subset_of_extendAll hok hdb
    exact hsub (ih db hdb line chains o (hfits.of_mem hdb) ho hfails)
  | hdict entries ih =>
    intro line chains outlist hfits hok hbare
    exact hfits.string_mem_forkGroups hfirst ih nodup_chainKeys (fun _ h => h)
      (.inr ⟨hfits.exists_branchFails hok hbare, _, List.mem_singleton_self _,
        hfits.start_lookedUpLine, rfl, fun _ _ _ _ => rfl⟩) (hfits.forkGroups hok)

end Necessity

end Tfm.Tools
