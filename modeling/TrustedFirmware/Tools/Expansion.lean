import TrustedFirmware.Tools.Groups

/-!
# The expansion of whole lines

On a database without bare scalars `substitute` gives the lines of the choices
(**`substitute_eq`**): by induction over the database, with one lemma for the loop over the groups
of a dictionary (`forkGroups_eq`). The line that a choice gives has every keychain replaced by what
it leads to (`Choice.resolve`).

The loop handles the keys one after the other, each on all the lines that are there by then. It
gives the combinations of the alternatives because a key changes the fragments of its own chains
only, so that the next key finds its fragments as the key lookup has left them (`AgreesOn`).
-/

namespace Tfm.Tools

/-! ## Resolved lines

The same walk as `Choice.leafOf`, but with a result for every keychain. -/

mutual

/-- What a keychain becomes in a choice: the text of a leaf, or what is left of it where its keys end
before or at a scalar that is no leaf. -/
def Choice.resolve : Choice → Text → Text
  | .leaf value, chain => if leaftype value then value.text else chain
  | .dict entries, chain =>
    (searchKey chain).elim chain fun key => (entryResolve entries key (dropKeyword chain)).getD chain

/-- The same in the value of a key. -/
def entryResolve : List (Text × Choice) → Text → Text → Option Text
  | [], _, _ => none
  | (groupkey, choice) :: entries, key, chain =>
    if key = groupkey then some (choice.resolve chain) else entryResolve entries key chain

end

/-- A keychain is resolved in the value that is found for its key. -/
theorem entryResolve_of_lookup {entries : List (Text × Choice)} {key : Text} {choice : Choice}
    (h : entries.lookup key = some choice) (chain : Text) :
    entryResolve entries key chain = some (choice.resolve chain) := by
  induction entries with
  | nil => cases h
  | cons entry entries ih =>
    rw [lookup_cons_eq_ite] at h
    rw [entryResolve]
    split at h
    · rename_i hkey
      rw [if_pos hkey, Option.some.inj h]
    · rename_i hkey
      rw [if_neg hkey, ih h]

mutual

/-- A keychain that names a leaf becomes its text. -/
theorem Choice.resolve_of_leafOf : ∀ (choice : Choice) {chain : Text} {value : Scalar},
    choice.leafOf chain = some value → leaftype value = true → choice.resolve chain = value.text
  | .leaf value', chain, value, h, hleaf => by
    rw [Choice.leafOf] at h
    split at h
    · rw [Choice.resolve, Option.some.inj h, if_pos hleaf]
    · cases h
  | .dict entries, chain, value, h, hleaf => by
    rw [Choice.leafOf] at h
    rw [Choice.resolve]
    cases hkey : searchKey chain with
    | none =>
      rw [hkey] at h
      cases h
    | some key =>
      rw [hkey] at h
      rw [Option.elim_some, entryResolve_of_leafOf entries h hleaf, Option.getD_some]

/-- The same in the value of a key. -/
theorem entryResolve_of_leafOf : ∀ (entries : List (Text × Choice)) {key chain : Text} {value : Scalar},
    entryLeafOf entries key chain = some value → leaftype value = true →
    entryResolve entries key chain = some value.text
  | [], key, chain, value, h, _ => by
    rw [entryLeafOf] at h
    cases h
  | (groupkey, choice) :: entries, key, chain, value, h, hleaf => by
    rw [entryLeafOf] at h
    rw [entryResolve]
    split at h
    · rename_i hkey
      rw [if_pos hkey, choice.resolve_of_leafOf h hleaf]
    · rename_i hkey
      rw [if_neg hkey, entryResolve_of_leafOf entries h hleaf]

end

/-- The line for a choice. -/
def fillLine (fragments : List Text) (chains : List Nat) (choice : Choice) : List Text :=
  updateAt fragments chains fun _ chain => choice.resolve chain

/-- What stands in the line for a chain. -/
theorem getElem?_fillLine {fragments : List Text} {chains : List Nat} {i : Nat} (hi : i ∈ chains)
    {fragment : Text} (h : fragments[i]? = some fragment) (choice : Choice) :
    (fillLine fragments chains choice)[i]? = some (choice.resolve fragment) := by
  rw [fillLine, getElem?_updateAt, h, Option.map_some, if_pos hi]

/-- The line is whole when the keychains name leaves. -/
theorem wholeLine_fillLine {fragments : List Text} {chains : List Nat} {choice : Choice}
    (h : ∀ chain ∈ keychains fragments chains, ∀ value, choice.leafOf chain = some value →
      leaftype value = true) : WholeLine fragments chains choice (fillLine fragments chains choice) := by
  refine ⟨length_updateAt, sameOff_updateAt.fragment, fun i hi fragment value hfragment hvalue => ?_⟩
  have hmem : fragment ∈ keychains fragments chains :=
    List.mem_map.mpr ⟨i, hi, by rw [List.getD_eq_getElem?_getD, hfragment, Option.getD_some]⟩
  rw [getElem?_fillLine hi hfragment, choice.resolve_of_leafOf hvalue (h fragment hmem value hvalue)]

/-! ## Combinations

What is found in a combination. -/

/-- A combination has one of the alternatives for a key. -/
theorem lookup_of_mem_combinations {α : Type} {alternatives : List (Text × List α)}
    {entries : List (Text × α)} (h : entries ∈ combinations alternatives) {key : Text} {as : List α}
    (hkey : alternatives.lookup key = some as) : ∃ a ∈ as, entries.lookup key = some a := by
  induction alternatives generalizing entries with
  | nil => cases hkey
  | cons alternative alternatives ih =>
    rw [combinations, List.mem_flatMap] at h
    obtain ⟨a, ha, h⟩ := h
    obtain ⟨entries', hentries', rfl⟩ := List.mem_map.mp h
    rw [lookup_cons_eq_ite] at hkey
    split at hkey
    · rename_i heq
      rw [Option.some.inj hkey] at ha
      exact ⟨a, ha, by rw [lookup_cons_eq_ite, if_pos heq]⟩
    · rename_i hne
      obtain ⟨a', ha', hlookup⟩ := ih hentries' hkey
      exact ⟨a', ha', by rw [lookup_cons_eq_ite, if_neg hne, hlookup]⟩

theorem lookup_none_of_mem_combinations {α : Type} {alternatives : List (Text × List α)}
    {entries : List (Text × α)} (h : entries ∈ combinations alternatives) {key : Text}
    (hkey : key ∉ alternatives.map Prod.fst) : entries.lookup key = none := by
  induction alternatives generalizing entries with
  | nil =>
    rw [combinations, List.mem_singleton] at h
    rw [h]
    rfl
  | cons alternative alternatives ih =>
    rw [combinations, List.mem_flatMap] at h
    obtain ⟨a, -, h⟩ := h
    obtain ⟨entries', hentries', rfl⟩ := List.mem_map.mp h
    rw [List.map_cons, List.mem_cons, not_or] at hkey
    rw [lookup_cons_eq_ite, if_neg hkey.1, ih hentries' hkey.2]

/-! ## Going deeper

The loop that forks lines, step by step. The source treats the first group that forks in a way of
its own; it is a step like the others, from one line (`forkGroups_none`). -/

theorem extendAll_ok {α : Type} {f : α → Except PyErr (List Line)} {g : α → List Line} {as : List α}
    (h : ∀ a ∈ as, f a = .ok (g a)) : extendAll f as = .ok (as.flatMap g) := by
  induction as with
  | nil => rfl
  | cons a as ih =>
    rw [extendAll, h a List.mem_cons_self, ih fun a ha => h a (List.mem_cons_of_mem _ ha)]
    rfl

theorem extendAll_map {α β : Type} (f : β → Except PyErr (List Line)) (h : α → β) (as : List α) :
    extendAll f (as.map h) = extendAll (fun a => f (h a)) as := by
  induction as with
  | nil => rfl
  | cons a as ih => rw [List.map_cons, extendAll, extendAll, ih]

theorem extendAll_singleton {α : Type} (f : α → Except PyErr (List Line)) (a : α) :
    extendAll f [a] = f a := by
  rw [extendAll, extendAll]
  cases f a with
  | error e => rfl
  | ok outlist => exact congrArg Except.ok (List.append_nil outlist)

theorem forkGroups_skip {db : List DictEntry} {transient : List Text} {forked : Option (List Line)}
    {group : ChainGroup} {groups : List ChainGroup} (h : group.2 = []) :
    forkGroups db transient forked (group :: groups) = forkGroups db transient forked groups := by
  obtain ⟨key, chains⟩ := group
  cases h
  rfl

/-- A group with chains goes deeper with all lines. -/
theorem forkGroups_branch {db : List DictEntry} {transient : List Text} {group : ChainGroup}
    {groups : List ChainGroup} {sub : Substitution} (hne : group.2 ≠ [])
    (hsub : db.lookup group.1 = some (.inr sub)) (forked : Option (List Line)) :
    forkGroups db transient forked (group :: groups) = (do
      let outlist ← extendAll (fun item => sub item group.2) (forked.getD [.fragments transient])
      forkGroups db transient (some outlist) groups) := by
  obtain ⟨key, chains⟩ := group
  cases chains with
  | nil => exact absurd rfl hne
  | cons chain chains =>
    conv_lhs => unfold forkGroups
    rw [hsub]
    cases forked with
    | none => simp only [Option.getD_none, extendAll_singleton]
    | some outlist => rfl

/-- The line is forked as one of the lines that are there. -/
theorem forkGroups_none (db : List DictEntry) (transient : List Text) (groups : List ChainGroup) :
    forkGroups db transient none groups
      = forkGroups db transient (some [.fragments transient]) groups := by
  induction groups with
  | nil => rfl
  | cons group groups ih =>
    unfold forkGroups
    split
    · simp only [extendAll_singleton]
    · exact ih

/-- Without a line nothing goes deeper, and nothing can go wrong. -/
theorem forkGroups_nil (db : List DictEntry) (transient : List Text) (groups : List ChainGroup) :
    forkGroups db transient (some []) groups = .ok [] := by
  induction groups with
  | nil => rfl
  | cons group groups ih =>
    unfold forkGroups
    split
    · exact ih
    · exact ih

/-! ## The loop over the groups of a dictionary

The invariant: every line that is there agrees with the looked-up line on the keys that are still to
come. -/

section Loop

variable {missing : MissingKeysAction} {entries : List (Text × Tree)} {transient : List Text}
  {keyOf : Nat → Option Text} {chains : List Nat}

/-- The line for one choice per key: every chain is resolved in the choice for its key. -/
def fillKeyed (keyOf : Nat → Option Text) (chains : List Nat) (line : List Text)
    (choice : List (Text × Choice)) : List Text :=
  updateAt line chains fun i chain =>
    ((keyOf i).bind fun key => choice.lookup key).elim chain fun choice => choice.resolve chain

/-- Without choices the line stays as it is. -/
theorem fillKeyed_nil (line : List Text) : fillKeyed keyOf chains line [] = line := by
  apply List.ext_getElem?
  intro i
  rw [fillKeyed, getElem?_updateAt]
  simp

/-- The chains of a key are filled first, and left alone afterwards. -/
theorem fillKeyed_cons {key : Text} {choices : List (Text × Choice)} (hkey : choices.lookup key = none)
    (choice : Choice) (line : List Text) :
    fillKeyed keyOf chains line ((key, choice) :: choices)
      = fillKeyed keyOf chains (fillLine line (chainsWith keyOf chains key) choice) choices := by
  apply List.ext_getElem?
  intro i
  rw [fillKeyed, fillKeyed, fillLine, getElem?_updateAt, getElem?_updateAt, getElem?_updateAt,
    Option.map_map]
  congr 1
  funext chain
  rw [Function.comp]
  -- a chain has one key: either the first one, or one of the others
  by_cases hi : i ∈ chains
  · rw [if_pos hi, if_pos hi]
    cases hkeyOf : keyOf i with
    | none => simp [hkeyOf]
    | some groupkey =>
      rw [Option.bind_some, Option.bind_some, lookup_cons_eq_ite]
      by_cases hgroup : groupkey = key
      · subst hgroup
        rw [if_pos rfl, hkey, if_pos (List.mem_filter.mpr ⟨hi, decide_eq_true hkeyOf⟩)]
        rfl
      · rw [if_neg hgroup, if_neg]
        intro hmem
        have := of_decide_eq_true (List.mem_filter.mp hmem).2
        rw [hkeyOf] at this
        exact hgroup (Option.some.inj this)
  · rw [if_neg hi, if_neg hi, if_neg fun hmem => hi (List.mem_filter.mp hmem).1]

/-! ### The fragments of other keys -/

/-- A line that the loop has not changed at the chains of some keys. -/
structure AgreesOn (keyOf : Nat → Option Text) (chains : List Nat) (transient : List Text)
    (keys : List Text) (line : List Text) : Prop where
  length : line.length = transient.length
  fragment : ∀ key ∈ keys, ∀ chain ∈ chainsWith keyOf chains key,
    line.getD chain [] = transient.getD chain []

/-- A line agrees on the other keys after the chains of one were changed. -/
theorem AgreesOn.of_sameOff {key : Text} {keys : List Text} {line line' : List Text}
    (h : AgreesOn keyOf chains transient (key :: keys) line) (hkey : key ∉ keys)
    (hsame : SameOff (chainsWith keyOf chains key) line line') :
    AgreesOn keyOf chains transient keys line' := by
  refine ⟨hsame.length.trans h.length, fun key' hkey' chain hchain => ?_⟩
  have hmem : chain ∉ chainsWith keyOf chains key := by
    intro hmem
    have heq := of_decide_eq_true (List.mem_filter.mp hmem).2
    rw [of_decide_eq_true (List.mem_filter.mp hchain).2] at heq
    rw [Option.some.inj heq] at hkey'
    exact hkey hkey'
  rw [← h.fragment key' (List.mem_cons_of_mem _ hkey') chain hchain, List.getD_eq_getElem?_getD,
    List.getD_eq_getElem?_getD, hsame.fragment chain hmem]

theorem AgreesOn.keychains_eq {key : Text} {keys : List Text} {line : List Text}
    (h : AgreesOn keyOf chains transient (key :: keys) line) :
    keychains line (chainsWith keyOf chains key)
      = keychains transient (chainsWith keyOf chains key) :=
  List.map_congr_left fun chain hchain => h.fragment key List.mem_cons_self chain hchain

/-! ### Alternatives for a key -/

/-- The alternatives for a key, with the fragments that the key lookup has left. -/
def alternatives (entries : List (Text × Tree)) (transient : List Text) (keyOf : Nat → Option Text)
    (chains : List Nat) (key : Text) : List Choice :=
  entryChoices entries key (keychains transient (chainsWith keyOf chains key))

/-- What the loop needs of a key: its chains are in the line, those that lead to a leaf have its text
already, and going deeper gives the lines of the choices. -/
structure KeyExpands (missing : MissingKeysAction) (entries : List (Text × Tree))
    (transient : List Text) (keyOf : Nat → Option Text) (chains : List Nat) (key : Text) : Prop where
  leaf : ∀ value, entries.lookup key = some (.leaf value) → leaftype value = true →
    ∀ chain ∈ chainsWith keyOf chains key, transient[chain]? = some value.text
  branch : ∀ db, entries.lookup key = some db → db.isLeaf = false → ∀ line : List Text,
    line.length = transient.length →
    keychains line (chainsWith keyOf chains key)
      = keychains transient (chainsWith keyOf chains key) →
    db.substitute missing (.fragments line) (chainsWith keyOf chains key)
      = .ok ((db.choices (keychains transient (chainsWith keyOf chains key))).map fun choice =>
        .fragments (fillLine line (chainsWith keyOf chains key) choice))

/-! ### The step and the loop

For a leaf nothing is left to do; for a branch every line is replaced by its lines for the choices. -/

/-- The lines for the combinations, with the first key filled first. -/
theorem flatMap_combinations {key : Text} {choices : List Choice} {rest : List (Text × List Choice)}
    (hkey : key ∉ rest.map Prod.fst) (lines : List (List Text)) :
    (lines.flatMap fun line => (combinations ((key, choices) :: rest)).map fun choice =>
        fillKeyed keyOf chains line choice)
      = (lines.flatMap fun line => choices.map fun choice =>
          fillLine line (chainsWith keyOf chains key) choice).flatMap fun line =>
            (combinations rest).map fun choice => fillKeyed keyOf chains line choice := by
  rw [List.flatMap_assoc]
  congr 1
  funext line
  rw [combinations, List.map_flatMap, List.flatMap_map]
  congr 1
  funext choice
  rw [List.map_map]
  apply List.map_congr_left
  intro entries hentries
  exact fillKeyed_cons (lookup_none_of_mem_combinations hentries hkey) choice line

/-- The key lookup has written the text of a leaf already. -/
theorem AgreesOn.fillLine_leaf {key : Text} {keys : List Text} {line : List Text} {value : Scalar}
    (h : AgreesOn keyOf chains transient (key :: keys) line) (hvalue : leaftype value = true)
    (hleaf : ∀ chain ∈ chainsWith keyOf chains key, transient[chain]? = some value.text) :
    Tools.fillLine line (chainsWith keyOf chains key) (.leaf value) = line := by
  apply List.ext_getElem?
  intro i
  rw [Tools.fillLine, getElem?_updateAt]
  by_cases hi : i ∈ chainsWith keyOf chains key
  · have hlt : i < line.length := by
      rw [h.length]
      exact (List.getElem?_eq_some_iff.mp (hleaf i hi)).1
    have hfragment := h.fragment key List.mem_cons_self i hi
    rw [List.getD_eq_getElem?_getD, List.getD_eq_getElem?_getD, hleaf i hi,
      List.getElem?_eq_getElem hlt, Option.getD_some, Option.getD_some] at hfragment
    rw [List.getElem?_eq_getElem hlt, Option.map_some, if_pos hi, hfragment, Choice.resolve,
      if_pos hvalue]
  · simp only [if_neg hi, Option.map_id']

theorem AgreesOn.mono {keys keys' : List Text} {line : List Text}
    (h : AgreesOn keyOf chains transient keys line) (hsub : keys' ⊆ keys) :
    AgreesOn keyOf chains transient keys' line :=
  ⟨h.length, fun key' hkey' => h.fragment key' (hsub hkey')⟩

/-- The key lookup has written the text of a leaf already, so the leaf changes none of the lines. -/
theorem flatMap_fillLine_leaf {key : Text} {keys : List Text} {lines : List (List Text)}
    {value : Scalar} (hlines : ∀ line ∈ lines, AgreesOn keyOf chains transient (key :: keys) line)
    (hvalue : leaftype value = true)
    (hleaf : ∀ chain ∈ chainsWith keyOf chains key, transient[chain]? = some value.text) :
    (lines.flatMap fun line => [Choice.leaf value].map fun choice =>
      fillLine line (chainsWith keyOf chains key) choice) = lines := by
  induction lines with
  | nil => rfl
  | cons line lines ih =>
    rw [List.flatMap_cons, ih fun l hl => hlines l (List.mem_cons_of_mem _ hl), List.map_singleton,
      (hlines line List.mem_cons_self).fillLine_leaf hvalue hleaf, List.singleton_append]

/-- A step of the loop, for a key that goes deeper. -/
theorem extendAll_substitute {key : Text} {keys : List Text} {lines : List (List Text)} {db : Tree}
    (hlookup : entries.lookup key = some db)
    (hkey : KeyExpands missing entries transient keyOf chains key) (hleaf : db.isLeaf = false)
    (hlines : ∀ line ∈ lines, AgreesOn keyOf chains transient (key :: keys) line) :
    extendAll (fun item => db.substitute missing item (chainsWith keyOf chains key))
        (lines.map .fragments)
      = .ok ((lines.flatMap fun line =>
        (alternatives entries transient keyOf chains key).map fun choice =>
          fillLine line (chainsWith keyOf chains key) choice).map .fragments) := by
  rw [extendAll_map, List.map_flatMap]
  simp only [List.map_map]
  refine extendAll_ok fun line hline => ?_
  rw [hkey.branch db hlookup hleaf line (hlines line hline).length (hlines line hline).keychains_eq,
    alternatives, entryChoices_of_lookup hlookup]
  rfl

/-- The loop over the groups gives one line for every combination of the alternatives. What stands
behind a key without alternatives is never looked at with a line. -/
theorem forkGroups_eq {keys : List Text} {lines : List (List Text)} (hnd : keys.Nodup)
    (hdb : ∀ key ∈ keys, ∃ db, entries.lookup key = some db)
    (hne : ∀ key ∈ keys, chainsWith keyOf chains key ≠ [])
    (hkeys : ∀ before key after, keys = before ++ key :: after →
      (∀ key' ∈ before, alternatives entries transient keyOf chains key' ≠ []) →
      KeyExpands missing entries transient keyOf chains key)
    (hlines : ∀ line ∈ lines, AgreesOn keyOf chains transient keys line) :
    forkGroups (substituteEntries missing entries) transient (some (lines.map .fragments))
        (keys.map fun key => deeper entries (key, chainsWith keyOf chains key))
      = .ok ((lines.flatMap fun line => (combinations (keys.map fun key =>
        (key, alternatives entries transient keyOf chains key))).map fun choice =>
          fillKeyed keyOf chains line choice).map .fragments) := by
  -- on the keys, for all lines that agree with the looked-up one
  induction keys generalizing lines with
  | nil =>
    have hlines : (lines.flatMap fun line => [fillKeyed keyOf chains line []]) = lines := by
      simp only [fillKeyed_nil, List.flatMap_singleton']
    rw [List.map_nil, List.map_nil, combinations]
    simp only [List.map_cons, List.map_nil, hlines]
    rfl
  | cons key keys ih =>
    obtain ⟨hkey, hnd⟩ := List.nodup_cons.mp hnd
    obtain ⟨db, hlookup⟩ := hdb key List.mem_cons_self
    have hexpands := hkeys [] key keys rfl (by simp)
    have hrest (halt : alternatives entries transient keyOf chains key ≠ [])
        (before : List Text) (key' : Text) (after : List Text) (hsplit : keys = before ++ key' :: after)
        (hbefore : ∀ key' ∈ before, alternatives entries transient keyOf chains key' ≠ []) :
        KeyExpands missing entries transient keyOf chains key' := by
      refine hkeys (key :: before) key' after (by rw [hsplit, List.cons_append]) fun key'' hkey'' => ?_
      rcases List.mem_cons.mp hkey'' with rfl | hmem
      · exact halt
      · exact hbefore key'' hmem
    have halt : alternatives entries transient keyOf chains key
        = db.choices (keychains transient (chainsWith keyOf chains key)) :=
      entryChoices_of_lookup hlookup _
    have hfst : key ∉ (keys.map fun key => (key, alternatives entries transient keyOf chains key)).map
        Prod.fst := by
      simpa using hkey
    rw [List.map_cons, List.map_cons, flatMap_combinations hfst]
    cases hleaf : db.isLeaf with
    | true =>
      cases db with
      | leaf value =>
        -- the key lookup has set the fragments already
        have hfill : (lines.flatMap fun line =>
            (alternatives entries transient keyOf chains key).map fun choice =>
              fillLine line (chainsWith keyOf chains key) choice) = lines := by
          rw [halt, Tree.choices]
          exact flatMap_fillLine_leaf hlines hleaf (hexpands.leaf value hlookup hleaf)
        rw [hfill, forkGroups_skip (by simp [deeper, hlookup, hleaf])]
        refine ih hnd (fun key' h => hdb key' (List.mem_cons_of_mem _ h))
          (fun key' h => hne key' (List.mem_cons_of_mem _ h)) (hrest ?_)
          fun line hline => (hlines line hline).mono (List.subset_cons_self _ _)
        rw [halt, Tree.choices]
        exact List.cons_ne_nil _ _
      | list instances => cases hleaf
      | dict entries => cases hleaf
    | false =>
      have hdeeper : deeper entries (key, chainsWith keyOf chains key)
          = (key, chainsWith keyOf chains key) := by
        simp [deeper, hlookup, hleaf]
      have hsub : (substituteEntries missing entries).lookup key = some (.inr (db.substitute missing)) := by
        rw [lookup_substituteEntries, hlookup, Option.map_some, entry_of_not_leaf hleaf]
      have hextend := extendAll_substitute hlookup hexpands hleaf hlines
      rw [hdeeper, forkGroups_branch (hne key List.mem_cons_self) hsub, Option.getD_some, hextend]
      simp only [bind, Except.bind]
      -- a list without elements ends all lines: nothing behind it is looked at
      by_cases hnil : alternatives entries transient keyOf chains key = []
      · have hnone : (lines.flatMap fun line =>
            (alternatives entries transient keyOf chains key).map fun choice =>
              fillLine line (chainsWith keyOf chains key) choice) = [] := by
          simp [hnil]
        rw [hnone]
        exact forkGroups_nil _ _ _
      · refine ih hnd (fun key' h => hdb key' (List.mem_cons_of_mem _ h))
          (fun key' h => hne key' (List.mem_cons_of_mem _ h)) (hrest hnil) fun line hline => ?_
        obtain ⟨line', hline', hmem⟩ := List.mem_flatMap.mp hline
        obtain ⟨choice, -, rfl⟩ := List.mem_map.mp hmem
        exact (hlines line' hline').of_sameOff hkey sameOff_updateAt

end Loop

/-! ## The expansion

The key lookup and the loop together are the substitution for a dictionary. -/

/-- What is given for a key is found under it. -/
theorem lookup_map_of_mem {α : Type} {keys : List Text} {key : Text} (h : key ∈ keys)
    (f : Text → α) : (keys.map fun key => (key, f key)).lookup key = some (f key) := by
  induction keys with
  | nil => cases h
  | cons groupkey keys ih =>
    rw [List.map_cons, lookup_cons_eq_ite]
    split
    · rename_i heq
      rw [heq]
    · rename_i hne
      exact ih ((List.mem_cons.mp h).resolve_left hne)

section Dict

variable {missing : MissingKeysAction} {entries : List (Text × Tree)} {fragments : List Text}
  {chains : List Nat}

/-! ### The key lookup in a line

The line after the key lookup, fragment by fragment. -/

/-- The first key of a fragment. -/
abbrev keyAt (fragments : List Text) (chain : Nat) : Option Text := searchKey (fragments.getD chain [])

/-- The fragments after the key lookup in a dictionary. -/
def lookedUpLine (entries : List (Text × Tree)) (fragments : List Text) (chains : List Nat) : List Text :=
  updateAt fragments ((groupsOf (keyAt fragments) chains).flatMap Prod.snd) fun i _ =>
    lookedUp entries (fragments.getD i [])

/-- The keys of the groups are those of the keychains. -/
theorem filterMap_keyAt : (chains.filterMap (keyAt fragments)).eraseDups
    = chainKeys (keychains fragments chains) := by
  rw [chainKeys, keychains, List.filterMap_map]
  rfl

theorem mem_chainKeys {chains : List Text} {key : Text} :
    key ∈ chainKeys chains ↔ ∃ chain ∈ chains, searchKey chain = some key := by
  rw [chainKeys, List.mem_eraseDups, List.mem_filterMap]

/-- The keys of a template come from its chains. -/
theorem mem_chainKeys_keychains {key : Text} :
    key ∈ chainKeys (keychains fragments chains)
      ↔ ∃ chain ∈ chains, keyAt fragments chain = some key := by
  rw [← filterMap_keyAt, List.mem_eraseDups, List.mem_filterMap]

theorem nodup_chainKeys : (chainKeys (keychains fragments chains)).Nodup := nodup_eraseDups _

theorem chainsWith_ne_nil {key : Text} (hkey : key ∈ chainKeys (keychains fragments chains)) :
    chainsWith (keyAt fragments) chains key ≠ [] := by
  obtain ⟨chain, hchain, hkey⟩ := mem_chainKeys_keychains.mp hkey
  exact List.ne_nil_of_mem (List.mem_filter.mpr ⟨hchain, decide_eq_true hkey⟩)

/-- The chains of all groups are those that have a key. -/
theorem mem_flatMap_groupsOf {chain : Nat} :
    chain ∈ (groupsOf (keyAt fragments) chains).flatMap Prod.snd
      ↔ chain ∈ chains ∧ ∃ key, keyAt fragments chain = some key := by
  rw [List.mem_flatMap]
  constructor
  · rintro ⟨group, hgroup, hchain⟩
    rw [(mem_groupsOf hgroup).2, List.mem_filter] at hchain
    exact ⟨hchain.1, group.1, of_decide_eq_true hchain.2⟩
  · rintro ⟨hchain, key, hkey⟩
    refine ⟨(key, chainsWith (keyAt fragments) chains key), List.mem_map.mpr ⟨key, ?_, rfl⟩,
      List.mem_filter.mpr ⟨hchain, decide_eq_true hkey⟩⟩
    rw [filterMap_keyAt]
    exact mem_chainKeys_keychains.mpr ⟨chain, hchain, hkey⟩

/-- The key lookup keeps the number of fragments. -/
theorem length_lookedUpLine : (lookedUpLine entries fragments chains).length = fragments.length :=
  length_updateAt

/-- What the keys of a dictionary's keychains lead to. -/
theorem exists_db_of_hasKeys {chains : List Text}
    (h : ∀ chain ∈ chains, HasKeys (.dict entries) chain) {key : Text}
    (hkey : key ∈ chainKeys chains) :
    ∃ db, entries.lookup key = some db ∧ ∀ chain ∈ chainsBehind key chains, HasKeys db chain := by
  obtain ⟨chain, hchain, hkey⟩ := mem_chainKeys.mp hkey
  obtain ⟨db, hdb⟩ : ∃ db, entries.lookup key = some db := by
    cases h chain hchain with
    | none hnone =>
      rw [hnone] at hkey
      cases hkey
    | some hsome hdb _ =>
      rw [hsome] at hkey
      cases hkey
      exact ⟨_, hdb⟩
  refine ⟨db, hdb, fun rest hrest => ?_⟩
  obtain ⟨chain', hchain', rfl⟩ := List.mem_map.mp hrest
  obtain ⟨hmem, hkey'⟩ := List.mem_filter.mp hchain'
  have hkey' := of_decide_eq_true hkey'
  cases h chain' hmem with
  | none hnone =>
    rw [hnone] at hkey'
    cases hkey'
  | some hsome hdb' hrest =>
    rw [hsome] at hkey'
    cases hkey'
    rw [hdb] at hdb'
    cases hdb'
    exact hrest

/-- The chains of a key after the lookup. -/
theorem getElem?_lookedUpLine {key : Text} {db : Tree} (hdb : entries.lookup key = some db)
    {chain : Nat} (hchain : chain ∈ chainsWith (keyAt fragments) chains key)
    (hlt : chain < fragments.length) :
    (lookedUpLine entries fragments chains)[chain]?
      = some (db.fragmentBehind (fragments.getD chain [])) := by
  obtain ⟨hmem, hkey⟩ := List.mem_filter.mp hchain
  have hkey := of_decide_eq_true hkey
  rw [lookedUpLine, getElem?_updateAt, List.getElem?_eq_getElem hlt, Option.map_some,
    if_pos (mem_flatMap_groupsOf.mpr ⟨hmem, key, hkey⟩), lookedUp_of_lookup hkey hdb]

theorem getElem?_lookedUpLine_of_no_key {i : Nat} (h : i ∈ chains → keyAt fragments i = none) :
    (lookedUpLine entries fragments chains)[i]? = fragments[i]? := by
  have hmem : i ∉ (groupsOf (keyAt fragments) chains).flatMap Prod.snd := by
    rw [mem_flatMap_groupsOf]
    rintro ⟨hi, key, hkey⟩
    rw [h hi] at hkey
    cases hkey
  rw [lookedUpLine, getElem?_updateAt]
  simp only [if_neg hmem, Option.map_id']

/-- After the lookup the keychains of a branch have lost their first key. -/
theorem keychains_lookedUpLine {key : Text} {db : Tree} (hdb : entries.lookup key = some db)
    (hleaf : db.isLeaf = false) (hrange : ∀ chain ∈ chains, chain < fragments.length) :
    keychains (lookedUpLine entries fragments chains) (chainsWith (keyAt fragments) chains key)
      = chainsBehind key (keychains fragments chains) := by
  rw [chainsBehind, keychains, keychains, List.filter_map, List.map_map]
  apply List.map_congr_left
  intro chain hchain
  rw [List.getD_eq_getElem?_getD, getElem?_lookedUpLine hdb hchain
    (hrange chain (List.mem_filter.mp hchain).1), fragmentBehind_of_not_leaf hleaf]
  rfl

/-- The alternatives after the lookup are the choices for the key. -/
theorem alternatives_lookedUpLine {key : Text} {db : Tree} (hdb : entries.lookup key = some db)
    (hrange : ∀ chain ∈ chains, chain < fragments.length) :
    alternatives entries (lookedUpLine entries fragments chains) (keyAt fragments) chains key
      = entryChoices entries key (chainsBehind key (keychains fragments chains)) := by
  rw [alternatives]
  cases hleaf : db.isLeaf with
  | false => rw [keychains_lookedUpLine hdb hleaf hrange]
  | true =>
    -- a leaf has one choice, whatever its keychains are
    rw [entryChoices_of_lookup hdb, entryChoices_of_lookup hdb]
    cases db with
    | leaf value => rfl
    | list instances => cases hleaf
    | dict entries => cases hleaf

/-- The lookup does not change what a keychain is resolved to. -/
theorem resolve_fragmentBehind {db : Tree} {chains : List Text} {choice : Choice}
    (h : choice ∈ db.choices chains) (chain : Text) :
    choice.resolve (db.fragmentBehind chain) = choice.resolve (dropKeyword chain) := by
  cases db with
  | leaf value =>
    rw [Tree.choices, List.mem_singleton] at h
    rw [h, Choice.resolve, Choice.resolve, Tree.fragmentBehind]
    split <;> rfl
  | list instances => rfl
  | dict entries => rfl

/-! ### Lines for the choices of a dictionary -/

/-- The line of a combination is the line of the dictionary with these choices. -/
theorem fillKeyed_lookedUpLine (hrange : ∀ chain ∈ chains, chain < fragments.length)
    (h : ∀ chain ∈ keychains fragments chains, HasKeys (.dict entries) chain)
    {choice : List (Text × Choice)}
    (hchoice : choice ∈ combinations ((chainKeys (keychains fragments chains)).map fun key =>
      (key, entryChoices entries key (chainsBehind key (keychains fragments chains))))) :
    fillKeyed (keyAt fragments) chains (lookedUpLine entries fragments chains) choice
      = fillLine fragments chains (.dict choice) := by
  apply List.ext_getElem?
  intro i
  rw [fillKeyed, fillLine, getElem?_updateAt, getElem?_updateAt]
  by_cases hi : i ∈ chains
  · have hget : fragments[i]? = some (fragments.getD i []) := by
      rw [List.getD_eq_getElem?_getD, List.getElem?_eq_getElem (hrange i hi), Option.getD_some]
    -- a keychain without keys is in no group
    cases hkey : searchKey (fragments.getD i []) with
    | none =>
      rw [getElem?_lookedUpLine_of_no_key fun _ => hkey, hget, Option.map_some, Option.map_some,
        Choice.resolve, keyAt, hkey]
      rfl
    | some key =>
      have hmem : key ∈ chainKeys (keychains fragments chains) :=
        mem_chainKeys_keychains.mpr ⟨i, hi, hkey⟩
      obtain ⟨db, hdb, -⟩ := exists_db_of_hasKeys h hmem
      obtain ⟨c, hc, hlookup⟩ := lookup_of_mem_combinations hchoice (lookup_map_of_mem hmem _)
      rw [entryChoices_of_lookup hdb] at hc
      rw [getElem?_lookedUpLine hdb (List.mem_filter.mpr ⟨hi, decide_eq_true hkey⟩) (hrange i hi), hget,
        Option.map_some, Option.map_some, if_pos hi, if_pos hi, keyAt, Choice.resolve, hkey,
        Option.bind_some, hlookup, Option.elim_some, Option.elim_some, resolve_fragmentBehind hc,
        entryResolve_of_lookup hlookup, Option.getD_some]
  · rw [getElem?_lookedUpLine_of_no_key fun h => absurd h hi]
    simp only [if_neg hi]

/-- The first two loops over a dictionary. -/
theorem substituteDict_eq_forkGroups (hrange : ∀ chain ∈ chains, chain < fragments.length)
    (hkeys : ∀ chain ∈ keychains fragments chains, HasKeys (.dict entries) chain)
    (hleaf : ∀ key ∈ chainKeys (keychains fragments chains), ∀ value,
      entries.lookup key = some (.leaf value) → leaftype value = true → value.Printable) :
    substituteDict missing (substituteEntries missing entries) (.fragments fragments) chains
      = forkGroups (substituteEntries missing entries) (lookedUpLine entries fragments chains)
        (some [.fragments (lookedUpLine entries fragments chains)])
        ((chainKeys (keychains fragments chains)).map fun key =>
          deeper entries (key, chainsWith (keyAt fragments) chains key)) := by
  have hfits (group : ChainGroup) (hgroup : group ∈ groupsOf (keyAt fragments) chains) :
      GroupFits entries fragments group := by
    obtain ⟨hkey, hchains⟩ := mem_groupsOf hgroup
    rw [filterMap_keyAt] at hkey
    obtain ⟨db, hdb, -⟩ := exists_db_of_hasKeys hkeys hkey
    refine ⟨fun chain hchain => ?_, ⟨db, hdb⟩, hleaf group.1 hkey⟩
    rw [hchains, List.mem_filter] at hchain
    exact ⟨hrange chain hchain.1, of_decide_eq_true hchain.2⟩
  have hselect : selectGroups missing (substituteEntries missing entries) (.fragments fragments)
      fragments (groupsOf (keyAt fragments) chains) = _ := selectGroups_eq rfl hfits
  rw [substituteDict, chainGroups_eq hrange]
  simp only [bind, Except.bind]
  rw [Line.toList, hselect, ← forkGroups_none, ← filterMap_keyAt, groupsOf, List.map_map]
  rfl

/-- What going deeper for a key should give. -/
def BranchExpands (missing : MissingKeysAction) (fragments : List Text) (chains : List Nat)
    (key : Text) (db : Tree) : Prop :=
  ∀ line : List Text, line.length = fragments.length →
    keychains line (chainsWith (keyAt fragments) chains key)
      = chainsBehind key (keychains fragments chains) →
    db.substitute missing (.fragments line) (chainsWith (keyAt fragments) chains key)
      = .ok ((db.choices (chainsBehind key (keychains fragments chains))).map fun choice =>
        .fragments (fillLine line (chainsWith (keyAt fragments) chains key) choice))

/-- The loop needs no more than this of a branch. -/
theorem BranchExpands.keyExpands {key : Text}
    (hrange : ∀ chain ∈ chains, chain < fragments.length)
    (hbranch : ∀ db, entries.lookup key = some db → db.isLeaf = false →
      BranchExpands missing fragments chains key db) :
    KeyExpands missing entries (lookedUpLine entries fragments chains) (keyAt fragments) chains key := by
  constructor
  case leaf =>
    intro value hdb hvalue chain hchain
    rw [getElem?_lookedUpLine hdb hchain (hrange chain (List.mem_filter.mp hchain).1),
      Tree.fragmentBehind, if_pos hvalue]
  case branch =>
    intro db hdb hleaf line hlen hline
    rw [keychains_lookedUpLine hdb hleaf hrange] at hline ⊢
    exact hbranch db hdb hleaf line (hlen.trans length_lookedUpLine) hline

/-- A dictionary gives the lines of its choices if the values that the lines get to do. -/
theorem substituteDict_eq (hrange : ∀ chain ∈ chains, chain < fragments.length)
    (hkeys : ∀ chain ∈ keychains fragments chains, HasKeys (.dict entries) chain)
    (hleaf : ∀ key ∈ chainKeys (keychains fragments chains), ∀ value,
      entries.lookup key = some (.leaf value) → leaftype value = true → value.Printable)
    (hbranch : ∀ before key after db,
      chainKeys (keychains fragments chains) = before ++ key :: after →
      (∀ key' ∈ before,
        entryChoices entries key' (chainsBehind key' (keychains fragments chains)) ≠ []) →
      entries.lookup key = some db → db.isLeaf = false → BranchExpands missing fragments chains key db) :
    (Tree.dict entries).substitute missing (.fragments fragments) chains
      = .ok (((Tree.dict entries).choices (keychains fragments chains)).map fun choice =>
        .fragments (fillLine fragments chains choice)) := by
  have hdb (key : Text) (hkey : key ∈ chainKeys (keychains fragments chains)) :
      ∃ db, entries.lookup key = some db := by
    obtain ⟨db, hdb, -⟩ := exists_db_of_hasKeys hkeys hkey
    exact ⟨db, hdb⟩
  have halt (key : Text) (hkey : key ∈ chainKeys (keychains fragments chains)) :
      alternatives entries (lookedUpLine entries fragments chains) (keyAt fragments) chains key
        = entryChoices entries key (chainsBehind key (keychains fragments chains)) := by
    obtain ⟨db, hdb⟩ := hdb key hkey
    exact alternatives_lookedUpLine hdb hrange
  have hexpands (before : List Text) (key : Text) (after : List Text)
      (hsplit : chainKeys (keychains fragments chains) = before ++ key :: after)
      (hbefore : ∀ key' ∈ before, alternatives entries (lookedUpLine entries fragments chains)
        (keyAt fragments) chains key' ≠ []) :
      KeyExpands missing entries (lookedUpLine entries fragments chains) (keyAt fragments) chains
        key := by
    refine BranchExpands.keyExpands hrange fun db hdb hleaf =>
      hbranch before key after db hsplit (fun key' hkey' => ?_) hdb hleaf
    rw [← halt key' (by rw [hsplit]; exact List.mem_append_left _ hkey')]
    exact hbefore key' hkey'
  have hlines (line : List Text) (hline : line ∈ [lookedUpLine entries fragments chains]) :
      AgreesOn (keyAt fragments) chains (lookedUpLine entries fragments chains)
        (chainKeys (keychains fragments chains)) line := by
    rw [List.mem_singleton.mp hline]
    exact ⟨rfl, fun _ _ _ _ => rfl⟩
  have hfork := forkGroups_eq nodup_chainKeys hdb (fun key => chainsWith_ne_nil) hexpands hlines
  have hcombinations : ((chainKeys (keychains fragments chains)).map fun key =>
      (key, alternatives entries (lookedUpLine entries fragments chains) (keyAt fragments) chains key))
        = (chainKeys (keychains fragments chains)).map fun key =>
          (key, entryChoices entries key (chainsBehind key (keychains fragments chains))) :=
    List.map_congr_left fun key hkey => by rw [halt key hkey]
  rw [Tree.substitute, substituteDict_eq_forkGroups hrange hkeys hleaf]
  refine hfork.trans ?_
  rw [hcombinations, Tree.choices, List.flatMap_cons, List.flatMap_nil, List.append_nil,
    List.map_map, List.map_map]
  congr 1
  apply List.map_congr_left
  intro choice hchoice
  exact congrArg Line.fragments (fillKeyed_lookedUpLine hrange hkeys hchoice)

end Dict

/-! ### All databases -/

/-- A scalar that is no leaf leaves the line as it is: no keychain has a key left for it. -/
theorem substituteRefused_eq {value : Scalar} {fragments : List Text} {chains : List Nat}
    (hrange : ∀ chain ∈ chains, chain < fragments.length)
    (hkeys : ∀ chain ∈ keychains fragments chains, HasKeys (.leaf value) chain) :
    substituteRefused (.fragments fragments) chains = .ok [.fragments fragments] := by
  have hnone : chains.filterMap (keyAt fragments) = [] := by
    rw [List.filterMap_eq_nil_iff]
    intro chain hchain
    cases hkeys _ (List.mem_map_of_mem hchain) with
    | leaf h => exact h
  have hgroups : chainGroups (.fragments fragments) chains = .ok [] := by
    rw [chainGroups_eq hrange, groupsOf, hnone]
    rfl
  rw [substituteRefused, hgroups]
  rfl

/-- On a database without bare scalars `substitute` gives the lines of the choices. -/
theorem substitute_eq (missing : MissingKeysAction) (db : Tree) :
    ∀ (fragments : List Text) (chains : List Nat), (∀ chain ∈ chains, chain < fragments.length) →
      (∀ chain ∈ keychains fragments chains, HasKeys db chain) →
      NoBareScalar db (keychains fragments chains) →
      db.substitute missing (.fragments fragments) chains
        = .ok ((db.choices (keychains fragments chains)).map fun choice =>
          .fragments (fillLine fragments chains choice)) := by
  induction db using Tree.induction with
  | hleaf value =>
    intro fragments chains hrange hkeys hbare
    cases hbare with
    | refused hvalue =>
      have hfill : fillLine fragments chains (.leaf value) = fragments := by
        apply List.ext_getElem?
        intro i
        rw [fillLine, getElem?_updateAt]
        simp [Choice.resolve, hvalue]
      rw [Tree.substitute, hvalue, if_neg Bool.false_ne_true, substituteRefused_eq hrange hkeys,
        Tree.choices, List.map_singleton, hfill]
  | hlist instances ih =>
    intro fragments chains hrange hkeys hbare
    cases hbare with
    | list hbare =>
      rw [Tree.substitute, substituteList, substituteInstances_eq, extendAll_map, Tree.choices,
        instancesChoices_eq, List.map_flatMap]
      refine extendAll_ok fun db hdb => ih db hdb fragments chains hrange (fun chain hchain => ?_)
        (hbare db hdb)
      cases hkeys chain hchain with
      | list h => exact h db hdb
  | hdict entries ih =>
    intro fragments chains hrange hkeys hbare
    cases hbare with
    | dict hleaf hbranch =>
      -- the values are expanded in lines that other keys have changed, so the induction is for all
      -- lines
      refine substituteDict_eq hrange hkeys hleaf
        fun before key after db hsplit hbefore hdb hdbleaf line hlen hline => ?_
      have hkey : key ∈ chainKeys (keychains fragments chains) := by
        rw [hsplit]
        exact List.mem_append_right _ List.mem_cons_self
      obtain ⟨db', hdb', hbehind⟩ := exists_db_of_hasKeys hkeys hkey
      obtain rfl : db = db' := Option.some.inj (hdb.symm.trans hdb')
      have hrange' (chain : Nat) (hchain : chain ∈ chainsWith (keyAt fragments) chains key) :
          chain < line.length := by
        rw [hlen]
        exact hrange chain (List.mem_filter.mp hchain).1
      have hbare := hbranch before key after db hsplit hbefore hdb hdbleaf
      rw [← hline] at hbehind hbare ⊢
      exact ih key db hdb line _ hrange' hbehind hbare

end Tfm.Tools
