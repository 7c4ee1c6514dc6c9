import Mathlib.Data.List.Induction
import TrustedFirmware.Tools.Choices

/-!
# Chain groups

The loops of `substitute` over a dictionary, on lists of fragments: the chains are grouped by their
first key, and the fragments of every group are set.

Both loops may raise an exception at every step. On a template whose chains are fragments and whose
keys exist they do not, and are equal to total functions: the groups are `groupsOf`
(`chainGroups_eq`), and the fragments of the chains are updated all at once (`selectGroups_eq`).
-/

namespace Tfm.Tools

/-! ## Fragments

The source sets items one by one. What a loop has done in the end is an update at a set of
positions. -/

section Fragments

variable {fragments : List Text} {chains : List Nat} {g : Nat → Text → Text}

/-- The fragments of some chains are changed. -/
def updateAt (fragments : List Text) (chains : List Nat) (g : Nat → Text → Text) : List Text :=
  fragments.mapIdx fun i fragment => if i ∈ chains then g i fragment else fragment

@[simp] theorem length_updateAt : (updateAt fragments chains g).length = fragments.length := by
  simp [updateAt]

theorem getElem?_updateAt (i : Nat) :
    (updateAt fragments chains g)[i]?
      = fragments[i]?.map fun fragment => if i ∈ chains then g i fragment else fragment := by
  simp [updateAt]

theorem updateAt_nil : updateAt fragments [] g = fragments := by
  apply List.ext_getElem?
  intro i
  simp [getElem?_updateAt]

/-- Two updates with values that depend on the position only. -/
theorem updateAt_updateAt (chains' : List Nat) (h : Nat → Text) :
    updateAt (updateAt fragments chains fun i _ => h i) chains' (fun i _ => h i)
      = updateAt fragments (chains ++ chains') fun i _ => h i := by
  apply List.ext_getElem?
  intro i
  rw [getElem?_updateAt, getElem?_updateAt, getElem?_updateAt, Option.map_map]
  congr 1
  funext fragment
  -- the second update wins, with the same value
  by_cases h' : i ∈ chains'
  · rw [Function.comp, if_pos h', if_pos (List.mem_append_right _ h')]
  · rw [Function.comp, if_neg h']
    by_cases h : i ∈ chains
    · rw [if_pos h, if_pos (List.mem_append_left _ h)]
    · rw [if_neg h, if_neg (by simp [h, h'])]

/-- The fragments that are no chains are the same. -/
structure SameOff (chains : List Nat) (fragments fragments' : List Text) : Prop where
  length : fragments'.length = fragments.length
  fragment : ∀ i, i ∉ chains → fragments'[i]? = fragments[i]?

theorem sameOff_updateAt : SameOff chains fragments (updateAt fragments chains g) := by
  refine ⟨length_updateAt, fun i hi => ?_⟩
  rw [getElem?_updateAt]
  simp only [if_neg hi, Option.map_id']

/-- The loop that sets the fragments of some chains. -/
theorem setItems_eq {fragment : Nat → Except PyErr Text} {h : Nat → Text}
    (hrange : ∀ chain ∈ chains, chain < fragments.length)
    (hfragment : ∀ chain ∈ chains, fragment chain = .ok (h chain)) :
    setItems fragments chains fragment = .ok (updateAt fragments chains fun i _ => h i) := by
  -- on the chains; a chain that comes again is set to the same fragment
  induction chains generalizing fragments with
  | nil =>
    rw [updateAt_nil]
    rfl
  | cons chain chains ih =>
    have hset : setItem fragments chain (h chain) = .ok (fragments.set chain (h chain)) :=
      if_pos (hrange chain List.mem_cons_self)
    have hrange' (c : Nat) (hc : c ∈ chains) : c < (fragments.set chain (h chain)).length := by
      rw [List.length_set]
      exact hrange c (List.mem_cons_of_mem _ hc)
    have hrest := ih hrange' fun c hc => hfragment c (List.mem_cons_of_mem _ hc)
    have hupdate : updateAt (fragments.set chain (h chain)) chains (fun i _ => h i)
        = updateAt fragments (chain :: chains) fun i _ => h i := by
      apply List.ext_getElem?
      intro i
      rw [getElem?_updateAt, getElem?_updateAt, List.getElem?_set]
      by_cases hi : chain = i
      · subst hi
        simp [hrange chain List.mem_cons_self]
      · simp [hi, Ne.symm hi]
    rw [← hupdate, ← hrest, setItems, List.foldlM_cons, hfragment chain List.mem_cons_self]
    simp only [bind, Except.bind, hset]
    rfl

end Fragments

theorem item_fragments {chain : Nat} {fragments : List Text} (h : chain < fragments.length) :
    (Line.fragments fragments).item chain = .ok (fragments.getD chain []) := by
  simp [Line.item, Line.toList, List.getD_eq_getElem?_getD, h]

/-! ## Grouping

The groups stand in the order in which their keys are met, and the chains of a group in their order. -/

/-- The chains with a given key. -/
abbrev chainsWith (keyOf : Nat → Option Text) (chains : List Nat) (key : Text) : List Nat :=
  chains.filter fun chain => keyOf chain = some key

/-- The chain groups with the same key, given the key of each chain. -/
def groupsOf (keyOf : Nat → Option Text) (chains : List Nat) : List ChainGroup :=
  ((chains.filterMap keyOf).eraseDups).map fun key => (key, chainsWith keyOf chains key)

theorem insertChain_of_not_mem {key : Text} {keys : List Text} (h : key ∉ keys) (chain : Nat)
    (f : Text → List Nat) :
    insertChain key chain (keys.map fun key => (key, f key))
      = (keys.map fun key => (key, f key)) ++ [(key, [chain])] := by
  induction keys with
  | nil => rfl
  | cons groupkey keys ih =>
    rw [List.mem_cons, not_or] at h
    rw [List.map_cons, insertChain, if_neg h.1, ih h.2, List.cons_append]

theorem insertChain_of_mem {key : Text} {keys : List Text} (h : key ∈ keys) (hnd : keys.Nodup)
    (chain : Nat) (f : Text → List Nat) :
    insertChain key chain (keys.map fun key => (key, f key))
      = keys.map fun key' => (key', if key' = key then f key' ++ [chain] else f key') := by
  induction keys with
  | nil => cases h
  | cons groupkey keys ih =>
    rw [List.nodup_cons] at hnd
    rw [List.map_cons, List.map_cons, insertChain]
    by_cases hkey : key = groupkey
    · subst hkey
      rw [if_pos rfl, if_pos rfl]
      congr 1
      apply List.map_congr_left
      intro key' hkey'
      rw [if_neg]
      rintro rfl
      exact hnd.1 hkey'
    · rw [if_neg hkey, if_neg (Ne.symm hkey), ih ((List.mem_cons.mp h).resolve_left hkey) hnd.2]

theorem nodup_eraseDups (keys : List Text) : keys.eraseDups.Nodup := by
  -- the rest of the list gets shorter, but is not its tail
  induction hn : keys.length using Nat.strongRecOn generalizing keys with
  | _ n ih =>
    cases keys with
    | nil => simp
    | cons key keys =>
      rw [List.eraseDups_cons, List.nodup_cons]
      refine ⟨?_, ih _ ?_ _ rfl⟩
      · rw [List.mem_eraseDups, List.mem_filter]
        simp
      · have := List.length_filter_le (fun b => !b == key) keys
        rw [List.length_cons] at hn
        omega

/-- A key behind the others is new or not. -/
theorem eraseDups_concat (keys : List Text) (key : Text) :
    (keys ++ [key]).eraseDups = if key ∈ keys then keys.eraseDups else keys.eraseDups ++ [key] := by
  rw [List.eraseDups_append, List.removeAll]
  by_cases h : key ∈ keys
  · rw [if_pos h, List.filter_cons_of_neg (by simpa using h)]
    simp
  · rw [if_neg h, List.filter_cons_of_pos (by simpa using h)]
    rfl

/-- One step of the loop that groups the chains. -/
theorem groupsOf_concat (keyOf : Nat → Option Text) (chains : List Nat) (chain : Nat) :
    groupsOf keyOf (chains ++ [chain])
      = (keyOf chain).elim (groupsOf keyOf chains) fun key =>
        insertChain key chain (groupsOf keyOf chains) := by
  unfold groupsOf
  cases hkey : keyOf chain with
  | none => simp [List.filterMap_append, hkey]
  | some key =>
    rw [Option.elim_some]
    have hfilter (key' : Text) :
        (chains ++ [chain]).filter (fun chain => keyOf chain = some key')
          = if key' = key then chains.filter (fun chain => keyOf chain = some key') ++ [chain]
            else chains.filter fun chain => keyOf chain = some key' := by
      rw [List.filter_append]
      by_cases h : key' = key
      · simp [hkey, h]
      · simp [hkey, h, Ne.symm h]
    simp only [List.filterMap_append, List.filterMap_cons, List.filterMap_nil, hkey,
      eraseDups_concat, hfilter]
    -- the key has a group already, or gets one
    by_cases hmem : key ∈ chains.filterMap keyOf
    · rw [if_pos hmem, insertChain_of_mem (List.mem_eraseDups.mpr hmem) (nodup_eraseDups _)]
    · have hnone : chains.filter (fun chain => keyOf chain = some key) = [] := by
        rw [List.filter_eq_nil_iff]
        intro chain hchain hk
        exact hmem (List.mem_filterMap.mpr ⟨chain, hchain, of_decide_eq_true hk⟩)
      rw [if_neg hmem, insertChain_of_not_mem fun h => hmem (List.mem_eraseDups.mp h),
        List.map_append, List.map_singleton, if_pos rfl, hnone, List.nil_append]
      congr 1
      apply List.map_congr_left
      intro key' hkey'
      rw [if_neg]
      rintro rfl
      exact hmem (List.mem_eraseDups.mp hkey')

theorem chainGroups_eq {fragments : List Text} {chains : List Nat}
    (hrange : ∀ chain ∈ chains, chain < fragments.length) :
    chainGroups (.fragments fragments) chains
      = .ok (groupsOf (fun chain => searchKey (fragments.getD chain [])) chains) := by
  induction chains using List.reverseRecOn with
  | nil => rfl
  | append_singleton chains chain ih =>
    have hitem := item_fragments (hrange chain (by simp))
    have hinit := ih fun c hc => hrange c (List.mem_append_left _ hc)
    rw [chainGroups] at hinit ⊢
    rw [List.foldlM_append, hinit, groupsOf_concat]
    simp only [bind, Except.bind, List.foldlM_cons, List.foldlM_nil, hitem]
    cases searchKey (fragments.getD chain []) <;> rfl

/-- A group of `groupsOf` has the chains with its key. -/
theorem mem_groupsOf {keyOf : Nat → Option Text} {chains : List Nat} {group : ChainGroup}
    (h : group ∈ groupsOf keyOf chains) :
    group.1 ∈ (chains.filterMap keyOf).eraseDups
      ∧ group.2 = chains.filter fun chain => keyOf chain = some group.1 := by
  obtain ⟨key, hkey, rfl⟩ := List.mem_map.mp h
  exact ⟨hkey, rfl⟩

/-! ## Databases

The substitutions for the parts of a database, found in the database. -/

theorem substituteInstances_eq (missing : MissingKeysAction) (instances : List Tree) :
    substituteInstances missing instances = instances.map fun db => db.substitute missing := by
  induction instances with
  | nil => rfl
  | cons db instances ih => rw [substituteInstances, ih, List.map_cons]

/-- The lookup in the substitutions for a dictionary. -/
theorem lookup_substituteEntries (missing : MissingKeysAction) (entries : List (Text × Tree))
    (key : Text) :
    (substituteEntries missing entries).lookup key
      = (entries.lookup key).map fun db => db.entry (db.substitute missing) := by
  induction entries with
  | nil => rfl
  | cons entry entries ih =>
    rw [substituteEntries, lookup_cons_eq_ite, lookup_cons_eq_ite, ih]
    split <;> rfl

/-- A branch is gone into by its own substitution. -/
theorem sub_of_entry {db : Tree} {sub sub' : Substitution} (h : db.entry sub = .inr sub') : sub = sub' := by
  unfold Tree.entry at h
  split at h
  · split at h
    · cases h
    · exact Sum.inr.inj h
  · exact Sum.inr.inj h

theorem entry_of_not_leaf {db : Tree} (h : db.isLeaf = false) (sub : Substitution) :
    db.entry sub = .inr sub := by
  cases db with
  | leaf value =>
    rw [Tree.entry, if_neg]
    rw [Tree.isLeaf] at h
    rw [h]
    exact Bool.false_ne_true
  | list instances => rfl
  | dict entries => rfl

/-! ## The key lookup

A keychain that leads to a leaf becomes the text of the leaf, one that leads to a branch loses its
first key. -/

/-- What is left of a keychain whose first key leads to `db`. -/
def Tree.fragmentBehind (chain : Text) : Tree → Text
  | .leaf value => if leaftype value then value.text else dropKeyword chain
  | _ => dropKeyword chain

/-- A keychain that leads to a branch loses its first key. -/
theorem fragmentBehind_of_not_leaf {db : Tree} (h : db.isLeaf = false) (chain : Text) :
    db.fragmentBehind chain = dropKeyword chain := by
  cases db with
  | leaf value =>
    rw [Tree.fragmentBehind, if_neg]
    rw [Tree.isLeaf] at h
    rw [h]
    exact Bool.false_ne_true
  | list instances => rfl
  | dict entries => rfl

/-- What the key lookup in a dictionary makes of a keychain. -/
def lookedUp (entries : List (Text × Tree)) (chain : Text) : Text :=
  ((searchKey chain).bind fun key => entries.lookup key).elim chain (Tree.fragmentBehind chain)

/-- What becomes of a keychain whose key exists. -/
theorem lookedUp_of_lookup {entries : List (Text × Tree)} {chain key : Text} {db : Tree}
    (hkey : searchKey chain = some key) (hdb : entries.lookup key = some db) :
    lookedUp entries chain = db.fragmentBehind chain := by
  rw [lookedUp, hkey, Option.bind_some, hdb, Option.elim_some]

/-- The chains of a group that go deeper. -/
def deeper (entries : List (Text × Tree)) (group : ChainGroup) : ChainGroup :=
  (group.1, if (entries.lookup group.1).any Tree.isLeaf then [] else group.2)

section Select

variable {missing : MissingKeysAction} {entries : List (Text × Tree)} {fragments : List Text}

/-- The chains of a group are fragments that start with the key of the group, and the key exists. -/
structure GroupFits (entries : List (Text × Tree)) (fragments : List Text) (group : ChainGroup) :
    Prop where
  chains : ∀ chain ∈ group.2, chain < fragments.length
    ∧ searchKey (fragments.getD chain []) = some group.1
  exists_db : ∃ db, entries.lookup group.1 = some db
  printable : ∀ value, entries.lookup group.1 = some (.leaf value) → leaftype value = true →
    value.Printable

theorem selectGroup_eq {transient : List Text} {group : ChainGroup}
    (hlen : transient.length = fragments.length) (hfits : GroupFits entries fragments group) :
    selectGroup missing (substituteEntries missing entries) (.fragments fragments) transient group
      = .ok (updateAt transient group.2 (fun i _ => lookedUp entries (fragments.getD i [])),
        (deeper entries group).2) := by
  obtain ⟨db, hdb⟩ := hfits.exists_db
  have hrange (chain : Nat) (h : chain ∈ group.2) : chain < transient.length := by
    rw [hlen]
    exact (hfits.chains chain h).1
  have hlooked (chain : Nat) (h : chain ∈ group.2) :
      lookedUp entries (fragments.getD chain []) = db.fragmentBehind (fragments.getD chain []) :=
    lookedUp_of_lookup (hfits.chains chain h).2 hdb
  have hentry : (substituteEntries missing entries).lookup group.1
      = some (db.entry (db.substitute missing)) := by
    rw [lookup_substituteEntries, hdb, Option.map_some]
  unfold selectGroup
  rw [hentry, deeper, hdb]
  -- the two ways of the source for a key that exists
  cases hleaf : db.isLeaf with
  | true =>
    cases db with
    | leaf value =>
      have hvalue : leaftype value = true := hleaf
      have hset : setItems transient group.2 (fun _ => value.pyStr)
          = .ok (updateAt transient group.2 fun i _ => lookedUp entries (fragments.getD i [])) := by
        refine setItems_eq hrange fun chain hc => ?_
        rw [hfits.printable value hdb hvalue, hlooked chain hc, Tree.fragmentBehind, if_pos hvalue]
      have hentry' : (Tree.leaf value).entry ((Tree.leaf value).substitute missing) = .inl value :=
        if_pos hvalue
      simp only [hentry', hset, Option.any_some, hleaf, if_true]
      rfl
    | list instances => cases hleaf
    | dict entries => cases hleaf
  | false =>
    have hset : setItems transient group.2 (fun chain => do
          let fragment ← (Line.fragments fragments).item chain
          pure (dropKeyword fragment))
        = .ok (updateAt transient group.2 fun i _ => lookedUp entries (fragments.getD i [])) := by
      refine setItems_eq hrange fun chain hc => ?_
      rw [item_fragments (hfits.chains chain hc).1, hlooked chain hc,
        fragmentBehind_of_not_leaf hleaf]
      rfl
    rw [entry_of_not_leaf hleaf]
    simp only [hset, Option.any_some, hleaf, Bool.false_eq_true, if_false]
    rfl

/-- The key lookup sets the fragments of all groups and keeps the chains that go deeper. -/
theorem selectGroups_eq {transient : List Text} {groups : List ChainGroup}
    (hlen : transient.length = fragments.length)
    (hfits : ∀ group ∈ groups, GroupFits entries fragments group) :
    selectGroups missing (substituteEntries missing entries) (.fragments fragments) transient groups
      = .ok (updateAt transient (groups.flatMap Prod.snd) (fun i _ => lookedUp entries
        (fragments.getD i [])), groups.map (deeper entries)) := by
  induction groups generalizing transient with
  | nil =>
    rw [List.flatMap_nil, updateAt_nil]
    rfl
  | cons group groups ih =>
    have hselect : selectGroup missing (substituteEntries missing entries) (.fragments fragments)
        transient group = _ := selectGroup_eq hlen (hfits group List.mem_cons_self)
    have hlen' : (updateAt transient group.2 fun i _ =>
        lookedUp entries (fragments.getD i [])).length = fragments.length := by
      rw [length_updateAt, hlen]
    have hrest := ih hlen' fun g hg => hfits g (List.mem_cons_of_mem _ hg)
    rw [updateAt_updateAt] at hrest
    unfold selectGroups
    simp only [hselect, hrest, bind, Except.bind]
    rfl

end Select

end Tfm.Tools
