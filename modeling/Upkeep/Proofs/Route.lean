import Mathlib.Logic.Relation
import Upkeep.Proofs.Outline

/-!
# The way a path takes

`Disk.walk` follows the names of a path in one go. Here it is taken apart.
A name is followed by a *move* (`Disk.Move`): a dot stays, two dots lead up,
the name of a directory leads down, and a link leads to where its path
starts, with the names of that path ahead and one link less to follow. A
walk is a sequence of stages with a move from each to the next
(`Disk.Steps`). Where it ends is settled by any of its stages
(`walk_of_steps`), and a move does not look at the names further ahead
(`steps_append`).

Two facts come out of this. A walk that never looks up a location does not
notice what stands there (`steps_of_agree`). And with fewer links than it
takes, a walk ends in the same place or runs out of links
(`IsTree.walk_front`).
-/

namespace Upkeep

namespace Disk

/-! ## Moves -/

/-- A name that is looked up in a directory. -/
def IsPlain (n : Name) : Prop :=
  n ≠ Path.selfName ∧ n ≠ Path.parentName ∧ Path.isLongName n = false

/-- Where a name leads from the directory `here`: how many links are
followed for it, the directory it leads to, and the names it puts ahead. -/
inductive Move (d : Disk) (here : Location) : Name → Nat → Location → List Name → Prop where
  | self : Move d here Path.selfName 0 here []
  | up : Move d here Path.parentName 0 here.dropLast []
  | down {n : Name} {mode : Nat} :
      IsPlain n → d.node? (here ++ [n]) = some (.dir mode) → Move d here n 0 (here ++ [n]) []
  | follow {n : Name} {target : Path} :
      IsPlain n → d.node? (here ++ [n]) = some (.link target) →
        Move d here n 1 (origin here target) target.steps

def IsLeaf (d : Disk) (loc : Location) : Prop :=
  d.node? loc = none ∨ ∃ mode bytes, d.node? loc = some (.file mode bytes)

section Walk

variable {d : Disk} {here : Location} {n : Name}

theorem walk_nil (links : Nat) : d.walk links here [] = .ok here := by
  cases links <;> rfl

theorem walk_of_move {cost : Nat} {there : Location} {names : List Name}
    (h : d.Move here n cost there names) (links : Nat) (rest : List Name) :
    d.walk (links + cost) here (n :: rest) = d.walk links there (names ++ rest) := by
  cases h with
  | self => cases links <;> rfl
  | up => cases links <;> rfl
  | down hn hdir =>
      obtain ⟨hself, hparent, hlong⟩ := hn
      cases links <;> simp [walk, walkWith, hself, hparent, hlong, hdir]
  | follow hn hlink =>
      obtain ⟨hself, hparent, hlong⟩ := hn
      simp [walk, walkWith, hself, hparent, hlong, hlink]

theorem walk_of_costly {cost : Nat} {there : Location} {names : List Name}
    (h : d.Move here n cost there names) {links : Nat} (hlinks : links < cost)
    (rest : List Name) : d.walk links here (n :: rest) = .error .linkLoop := by
  cases h with
  | follow hn hlink =>
      obtain ⟨hself, hparent, hlong⟩ := hn
      obtain rfl := Nat.lt_one_iff.mp hlinks
      simp [walk, walkWith, hself, hparent, hlong, hlink]
  | _ => exact absurd hlinks (Nat.not_lt_zero _)

theorem walk_last (hn : IsPlain n) (hleaf : d.IsLeaf (here ++ [n])) (links : Nat) :
    d.walk links here [n] = .ok (here ++ [n]) := by
  obtain ⟨hself, hparent, hlong⟩ := hn
  rcases hleaf with hnone | ⟨mode, bytes, hfile⟩
  · cases links <;> simp [walk, walkWith, hself, hparent, hlong, hnone]
  · cases links <;> simp [walk, walkWith, hself, hparent, hlong, hfile]

theorem walk_past_file (hn : IsPlain n) {mode : Nat} {bytes : List UInt8}
    (hfile : d.node? (here ++ [n]) = some (.file mode bytes)) (links : Nat) (next : Name)
    (rest : List Name) : d.walk links here (n :: next :: rest) = .error .notDirectory := by
  obtain ⟨hself, hparent, hlong⟩ := hn
  cases links <;> simp [walk, walkWith, hself, hparent, hlong, hfile]

/-- A walk goes on by a move, or its last name is a leaf, or it fails. -/
theorem walk_cases (d : Disk) (links : Nat) (here : Location) (n : Name) (rest : List Name) :
    (∃ left cost there names, links = left + cost ∧ d.Move here n cost there names)
      ∨ (rest = [] ∧ IsPlain n ∧ d.IsLeaf (here ++ [n]))
      ∨ ∃ fault, d.walk links here (n :: rest) = .error fault := by
  by_cases hself : n = Path.selfName
  · subst hself
    exact .inl ⟨links, 0, here, [], rfl, .self⟩
  by_cases hparent : n = Path.parentName
  · subst hparent
    exact .inl ⟨links, 0, here.dropLast, [], rfl, .up⟩
  by_cases hlong : Path.isLongName n = true
  · refine .inr (.inr ⟨.nameTooLong, ?_⟩)
    cases links <;> simp [walk, walkWith, hself, hparent, hlong]
  have hn : IsPlain n := ⟨hself, hparent, by simpa using hlong⟩
  cases hnode : d.node? (here ++ [n]) with
  | none =>
      cases rest with
      | nil => exact .inr (.inl ⟨rfl, hn, .inl hnode⟩)
      | cons next rest =>
          refine .inr (.inr ⟨.notFound, ?_⟩)
          cases links <;> simp [walk, walkWith, hself, hparent, hlong, hnode]
  | some node =>
      cases node with
      | dir mode => exact .inl ⟨links, 0, _, [], rfl, .down hn hnode⟩
      | file mode bytes =>
          cases rest with
          | nil => exact .inr (.inl ⟨rfl, hn, .inr ⟨mode, bytes, hnode⟩⟩)
          | cons next rest => exact .inr (.inr ⟨_, walk_past_file hn hnode links next rest⟩)
      | link target =>
          cases links with
          | zero => exact .inr (.inr ⟨_, walk_of_costly (.follow hn hnode) Nat.one_pos rest⟩)
          | succ links => exact .inl ⟨links, 1, _, _, rfl, .follow hn hnode⟩

theorem move_unique {cost cost' : Nat} {there there' : Location} {names names' : List Name}
    (h : d.Move here n cost there names) (h' : d.Move here n cost' there' names') :
    cost = cost' ∧ there = there' ∧ names = names' := by
  cases h with
  | self =>
      cases h' with
      | self => exact ⟨rfl, rfl, rfl⟩
      | down hn => exact absurd rfl hn.1
      | follow hn => exact absurd rfl hn.1
  | up =>
      cases h' with
      | up => exact ⟨rfl, rfl, rfl⟩
      | down hn => exact absurd rfl hn.2.1
      | follow hn => exact absurd rfl hn.2.1
  | down hn hdir =>
      cases h' with
      | self => exact absurd rfl hn.1
      | up => exact absurd rfl hn.2.1
      | down => exact ⟨rfl, rfl, rfl⟩
      | follow _ hlink =>
          rw [hdir] at hlink
          cases hlink
  | follow hn hlink =>
      cases h' with
      | self => exact absurd rfl hn.1
      | up => exact absurd rfl hn.2.1
      | down _ hdir =>
          rw [hdir] at hlink
          cases hlink
      | follow _ hlink' =>
          rw [hlink] at hlink'
          cases hlink'
          exact ⟨rfl, rfl, rfl⟩

end Walk

/-! ## Stages -/

/-- Where a walk stands: the links it may still follow, the directory it
has come to and the names ahead. -/
structure Stage where
  links : Nat
  here : Location
  ahead : List Name

/-- One name further. -/
inductive Step (d : Disk) : Stage → Stage → Prop where
  | move {links cost : Nat} {here there : Location} {n : Name} {names rest : List Name} :
      d.Move here n cost there names →
        Step d ⟨links + cost, here, n :: rest⟩ ⟨links, there, names ++ rest⟩

abbrev Steps (d : Disk) : Stage → Stage → Prop := Relation.ReflTransGen d.Step

/-- A walk goes on where its steps have led. -/
theorem walk_of_steps {d : Disk} {s s' : Stage} (h : d.Steps s s') :
    d.walk s.links s.here s.ahead = d.walk s'.links s'.here s'.ahead := by
  induction h with
  | refl => rfl
  | tail _ hstep ih =>
      rw [ih]
      cases hstep with
      | move hmove => exact walk_of_move hmove _ _

theorem step_append {d : Disk} {s s' : Stage} (h : d.Step s s') (more : List Name) :
    d.Step ⟨s.links, s.here, s.ahead ++ more⟩ ⟨s'.links, s'.here, s'.ahead ++ more⟩ := by
  cases h with
  | move hmove =>
      rw [List.append_assoc]
      exact .move hmove

theorem steps_append {d : Disk} {s s' : Stage} (h : d.Steps s s') (more : List Name) :
    d.Steps ⟨s.links, s.here, s.ahead ++ more⟩ ⟨s'.links, s'.here, s'.ahead ++ more⟩ := by
  induction h with
  | refl => exact .refl
  | tail _ hstep ih => exact ih.tail (step_append hstep more)

theorem links_le_of_steps {d : Disk} {s s' : Stage} (h : d.Steps s s') : s'.links ≤ s.links := by
  induction h with
  | refl => exact Nat.le_refl _
  | tail _ hstep ih =>
      cases hstep with
      | move => exact Nat.le_trans (Nat.le_add_right _ _) ih

/-- There is one way to go on from a stage. -/
theorem step_unique {d : Disk} : Relator.RightUnique d.Step := by
  intro s s₁ s₂ h₁ h₂
  generalize hs : s = r at h₂
  cases h₁ with
  | @move links _ _ _ _ _ _ hmove =>
      cases h₂ with
      | @move links' _ _ _ _ _ _ hmove' =>
          obtain ⟨hlinks, rfl, hahead⟩ := Stage.mk.inj hs
          obtain ⟨rfl, rfl⟩ := List.cons.inj hahead
          obtain ⟨rfl, rfl, rfl⟩ := move_unique hmove hmove'
          rw [Nat.add_right_cancel hlinks]

/-- Walks come to an end: a step follows a link, or leaves fewer names
ahead. -/
theorem stage_induction (d : Disk) {P : Stage → Prop}
    (h : ∀ s, (∀ s', d.Step s s' → P s') → P s) (s : Stage) : P s := by
  obtain ⟨links, here, ahead⟩ := s
  induction links using Nat.strongRecOn generalizing here ahead with
  | _ links outer =>
      induction ahead generalizing here with
      | nil =>
          refine h _ ?_
          intro s' hstep
          cases hstep
      | cons n rest inner =>
          refine h _ ?_
          intro s' hstep
          generalize hs : (⟨links, here, n :: rest⟩ : Stage) = s at hstep
          cases hstep with
          | move hmove =>
              cases hs
              cases hmove with
              | self => exact inner _
              | up => exact inner _
              | down => exact inner _
              | follow => exact outer _ (Nat.lt_succ_self _) _ _

/-- A walk that ends in a directory gets there step by step. -/
theorem exists_steps_of_walk {d : Disk} {folder : Location} (s : Stage)
    (h : d.walk s.links s.here (s.ahead ++ [Path.selfName]) = .ok folder) :
    ∃ left, d.Steps s ⟨left, folder, []⟩ := by
  induction s using stage_induction d with
  | _ s ih =>
      obtain ⟨links, here, ahead⟩ := s
      cases ahead with
      | nil =>
          have hend : d.walk links here [Path.selfName] = .ok here := by
            rw [show links = links + 0 from rfl, walk_of_move .self]
            exact walk_nil links
          obtain rfl : folder = here := Except.ok.inj (h.symm.trans hend)
          exact ⟨links, .refl⟩
      | cons n rest =>
          rcases walk_cases d links here n (rest ++ [Path.selfName]) with
            ⟨left, cost, there, names, rfl, hmove⟩ | ⟨hlast, -⟩ | ⟨fault, hfault⟩
          · have hstep : d.Step ⟨left + cost, here, n :: rest⟩ ⟨left, there, names ++ rest⟩ :=
              .move hmove
            rw [List.cons_append, walk_of_move hmove, ← List.append_assoc] at h
            obtain ⟨links, hsteps⟩ := ih _ hstep h
            exact ⟨links, .head hstep hsteps⟩
          · simp at hlast
          · exact absurd (h.symm.trans hfault) (by simp)

/-! ## Locations that are looked up -/

/-- The next thing to look up is what stands at this location. -/
def Stage.LooksUp (s : Stage) (loc : Location) : Prop :=
  ∃ n rest, s.ahead = n :: rest ∧ IsPlain n ∧ s.here ++ [n] = loc

/-- Only the location that a stage looks up matters to its step. -/
theorem step_of_agree {d d' : Disk} {loc : Location} (hagree : ∀ l ≠ loc, d'.node? l = d.node? l)
    {s s' : Stage} (h : d.Step s s') (hs : ¬ s.LooksUp loc) : d'.Step s s' := by
  cases h with
  | move hmove =>
      refine .move ?_
      cases hmove with
      | self => exact .self
      | up => exact .up
      | down hn hdir =>
          rw [← hagree _ fun heq => hs ⟨_, _, rfl, hn, heq⟩] at hdir
          exact .down hn hdir
      | follow hn hlink =>
          rw [← hagree _ fun heq => hs ⟨_, _, rfl, hn, heq⟩] at hlink
          exact .follow hn hlink

/-- **A walk that never looks up a location** does not notice what stands
there. -/
theorem steps_of_agree {d d' : Disk} {loc : Location} (hagree : ∀ l ≠ loc, d'.node? l = d.node? l)
    {s s' : Stage} (h : d.Steps s s') (hnever : ∀ r, d.Steps s r → ¬ r.LooksUp loc) :
    d'.Steps s s' := by
  induction h with
  | refl => exact .refl
  | tail hsteps hstep ih => exact ih.tail (step_of_agree hagree hstep (hnever _ hsteps))

def IsFolder (d : Disk) (loc : Location) : Prop := ∃ mode, d.node? loc = some (.dir mode)

theorem isFolder_iff {d : Disk} {loc : Location} :
    d.IsFolder loc ↔ (d.node? loc).any Node.isDir = true := by
  unfold IsFolder
  cases d.node? loc with
  | none => simp
  | some node => cases node <;> simp [Node.isDir]

instance (d : Disk) (loc : Location) : Decidable (d.IsFolder loc) :=
  decidable_of_iff _ isFolder_iff.symm

theorem isFolder_root (d : Disk) : d.IsFolder [] := ⟨Node.dirMode, rfl⟩

/-- Every entry stands in a directory, and the working directory is one. -/
structure IsTree (d : Disk) : Prop where
  above : ∀ loc n, d.node? (loc ++ [n]) ≠ none → d.IsFolder loc
  workDir : d.IsFolder d.workDir

theorem isTree_iff {d : Disk} :
    d.IsTree ↔ d.IsFolder d.workDir ∧ ∀ e ∈ d.nodes, d.IsFolder e.1.dropLast := by
  constructor
  · intro ht
    refine ⟨ht.workDir, ?_⟩
    intro e he
    rcases List.eq_nil_or_concat e.1 with hroot | ⟨folder, n, hloc⟩
    · rw [hroot]
      exact isFolder_root d
    · rw [List.concat_eq_append] at hloc
      rw [hloc, List.dropLast_concat]
      refine ht.above folder n ?_
      rw [← hloc, node?_of_mem he (by simp [hloc])]
      simp
  · rintro ⟨hwork, habove⟩
    refine ⟨?_, hwork⟩
    intro loc n hsome
    rw [node?, if_neg (by simp), ← Option.isSome_iff_ne_none, List.lookup_isSome_iff] at hsome
    obtain ⟨e, he, hkey⟩ := hsome
    have hfolder := habove e he
    rw [← beq_iff_eq.mp hkey, List.dropLast_concat] at hfolder
    exact hfolder

instance (d : Disk) : Decidable d.IsTree := decidable_of_iff _ isTree_iff.symm

theorem isFolder_outline {d : Disk} {loc : Location} : d.outline.IsFolder loc ↔ d.IsFolder loc := by
  rw [isFolder_iff, isFolder_iff, node?_outline]
  cases d.node? loc with
  | none => rfl
  | some node => cases node <;> rfl

/-- Bytes do not matter. -/
theorem isTree_outline {d : Disk} : d.outline.IsTree ↔ d.IsTree := by
  have hnone : ∀ loc, d.outline.node? loc = none ↔ d.node? loc = none := by
    intro loc
    rw [node?_outline, Option.map_eq_none_iff]
  constructor
  · rintro ⟨habove, hwork⟩
    exact ⟨fun loc n h => isFolder_outline.mp (habove loc n (mt (hnone _).mp h)),
      isFolder_outline.mp hwork⟩
  · rintro ⟨habove, hwork⟩
    exact ⟨fun loc n h => isFolder_outline.mpr (habove loc n (mt (hnone _).mpr h)),
      isFolder_outline.mpr hwork⟩

theorem isFolder_origin {d : Disk} {here : Location} (h : d.IsFolder here) (p : Path) :
    d.IsFolder (origin here p) := by
  unfold origin
  split
  · exact isFolder_root d
  · exact h

namespace IsTree

variable {d : Disk} (ht : d.IsTree)
include ht

theorem isFolder_dropLast {here : Location} (h : d.IsFolder here) : d.IsFolder here.dropLast := by
  rcases List.eq_nil_or_concat here with rfl | ⟨above, n, rfl⟩
  · exact h
  · obtain ⟨mode, hmode⟩ := h
    rw [List.concat_eq_append] at hmode ⊢
    rw [List.dropLast_concat]
    refine ht.above above n ?_
    rw [hmode]
    intro hnone
    cases hnone

theorem isFolder_of_step {s s' : Stage} (h : d.Step s s') (hs : d.IsFolder s.here) :
    d.IsFolder s'.here := by
  cases h with
  | move hmove =>
      cases hmove with
      | self => exact hs
      | up => exact ht.isFolder_dropLast hs
      | down _ hdir => exact ⟨_, hdir⟩
      | follow => exact isFolder_origin hs _

theorem isFolder_of_steps {s s' : Stage} (h : d.Steps s s') (hs : d.IsFolder s.here) :
    d.IsFolder s'.here := by
  induction h with
  | refl => exact hs
  | tail _ hstep ih => exact ht.isFolder_of_step hstep ih

/-- **The front of a walk with fewer links.** Where a walk gets to the end
of its names, a walk along the first of them comes to a directory, or runs
out of links if it may follow fewer. -/
theorem walk_front {s s' : Stage} (h : d.Steps s s') (hend : s'.ahead = [])
    (hs : d.IsFolder s.here) {front back : List Name} (hahead : s.ahead = front ++ back)
    {links : Nat} (hlinks : links ≤ s.links) :
    d.walk links s.here front = .error .linkLoop
      ∨ ∃ loc, d.walk links s.here front = .ok loc ∧ d.IsFolder loc := by
  induction h using Relation.ReflTransGen.head_induction_on generalizing front links with
  | refl =>
      rw [hend] at hahead
      obtain ⟨rfl, -⟩ := List.append_eq_nil_iff.mp hahead.symm
      exact .inr ⟨_, walk_nil links, hs⟩
  | @head s s₁ hstep hsteps ih =>
      cases front with
      | nil => exact .inr ⟨_, walk_nil links, hs⟩
      | cons n front =>
          have hfolder := ht.isFolder_of_step hstep hs
          cases hstep with
          | @move left cost _ _ _ _ _ hmove =>
              obtain ⟨rfl, rfl⟩ := List.cons.inj hahead
              rcases Nat.lt_or_ge links cost with hfew | henough
              · exact .inl (walk_of_costly hmove hfew front)
              · obtain ⟨k, rfl⟩ := Nat.exists_eq_add_of_le' henough
                rw [walk_of_move hmove]
                exact ih hfolder (List.append_assoc _ _ _).symm (Nat.le_of_add_le_add_right hlinks)

end IsTree

end Disk

end Upkeep
