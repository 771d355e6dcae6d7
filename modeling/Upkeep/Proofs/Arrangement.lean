import Upkeep.Proofs.Footprint

/-!
# Arrangements of the arguments

What is asked for (`Order`) can be written in many ways: the options that
hold for all jobs stand before the job's name or behind it, in any order,
with their values joined to them or not. All of these ask for the same
(`Program.run_arranged`).

A value that has its own argument is kept back until the next option, or
until its side ends. So while a side is read, the options given so far are
not those of `Side` but those that it settles to, and this is what the
step lemma is about (`Reads.item`). It holds for both sides at once, since
the two are read alike (`Reads`). What a side comes to then depends only on
which options are among its items (`addAll_eq`), and options that are
given once come to the same on either side.
-/

namespace Upkeep

namespace Arguments

/-! ## Items -/

def PathOption.name : PathOption → Text
  | root => "root".toList
  | config => "config".toList

/-- An option as it is written. -/
inductive Item where
  | path (o : PathOption) (joined : Bool) (v : Path)
  /-- One flag and `more` of them, joined. -/
  | verbose (more : Nat)
  | dryRun
  deriving Repr, DecidableEq

/-- A path that can be the value of an option. -/
def IsValue (v : Path) : Prop := v ≠ [] ∧ v.head? ≠ some '-'

namespace Item

/-- The arguments that an item is written as. -/
def words : Item → List Text
  | path o true v => ["--".toList ++ o.name ++ '=' :: v]
  | path o false v => ["--".toList ++ o.name, v]
  | verbose more => ['-' :: List.replicate (more + 1) 'v']
  | dryRun => ["--dry-run".toList]

/-- The item can be given at a place. -/
def FitsAt (place : Placement) : Item → Prop
  | path _ _ v => IsValue v
  | verbose _ => True
  | dryRun => place.hasDryRun = true

/-- What an item adds to the options that are settled. -/
def addTo (s : Side) : Item → Option Side
  | path o _ v => s.set o v
  | verbose more => some { s with verbosity := s.verbosity + (more + 1) }
  | dryRun => if s.dryRun then none else some { s with dryRun := true }

end Item

/-- What some items add, one after the other. -/
def addAll : Side → List Item → Option Side
  | s, [] => some s
  | s, item :: items => (item.addTo s).bind (addAll · items)

/-! ## Single arguments -/

theorem of_isValue {v : Path} (h : IsValue v) : Argument.of v = .word v := by
  obtain ⟨c, t, rfl⟩ := List.exists_cons_of_ne_nil h.1
  have hc : c ≠ '-' := fun hdash => h.2 (congrArg some hdash)
  unfold Argument.of
  split <;> simp_all

theorem of_joined (o : PathOption) (v : Path) :
    Argument.of ("--".toList ++ o.name ++ '=' :: v) = .long o.name (some v) := by
  cases o <;> rfl

theorem of_separate (o : PathOption) : Argument.of ("--".toList ++ o.name) = .long o.name none := by
  cases o <;> rfl

theorem of_verbose (more : Nat) :
    Argument.of ('-' :: List.replicate (more + 1) 'v') = .short (List.replicate (more + 1) 'v') :=
  rfl

theorem takeLong_path (place : Placement) (s : Side) (o : PathOption) (value : Option Text) :
    takeLong place s o.name value = takePath s o value := by
  cases o <;> rfl

theorem takeShort_verbose (place : Placement) (s : Side) (n : Nat) :
    takeShort place s (List.replicate n 'v') = .ok { s with verbosity := s.verbosity + n } := by
  induction n generalizing s with
  | zero => rfl
  | succ n ih =>
      rw [List.replicate_succ, takeShort, if_pos (beq_self_eq_true 'v'), ih]
      simp only [Nat.add_assoc, Nat.add_comm 1 n]

/-! ## Sides -/

namespace Side

def get (s : Side) : PathOption → Option Path
  | .root => s.root
  | .config => s.config

def put (s : Side) (o : PathOption) (v : Path) : Side :=
  match o with
  | .root => { s with root := some v }
  | .config => { s with config := some v }

theorem get_put (s : Side) (o o' : PathOption) (v : Path) :
    (s.put o v).get o' = if o' = o then some v else s.get o' := by
  cases o <;> cases o' <;> rfl

theorem pending_put (s : Side) (o : PathOption) (v : Path) : (s.put o v).pending = s.pending := by
  cases o <;> rfl

theorem dryRun_put (s : Side) (o : PathOption) (v : Path) : (s.put o v).dryRun = s.dryRun := by
  cases o <;> rfl

theorem set_eq_some_iff {s s' : Side} {o : PathOption} {v : Path} :
    s.set o v = some s' ↔ v ≠ [] ∧ s.get o = none ∧ s' = s.put o v := by
  cases o <;> simp [set, get, put, @eq_comm Side s']

theorem settle_of_pending {s : Side} (h : s.pending = none) : s.settle = some s := by
  rw [settle, h]

theorem pending_of_settle {s s' : Side} (h : s.settle = some s') : s'.pending = none := by
  unfold settle at h
  split at h
  · obtain rfl := Option.some.inj h
    assumption
  · cases h
  · obtain ⟨-, -, rfl⟩ := set_eq_some_iff.mp h
    rw [pending_put]

theorem awaitsValue_of_settle {s s' : Side} (h : s.settle = some s') : s.awaitsValue = false := by
  unfold awaitsValue
  split
  · rename_i hpending
    rw [settle, hpending] at h
    cases h
  · rfl

end Side

theorem takeOption_of_settle {s s' : Side} (h : s.settle = some s')
    (take : Side → Except Request Side) : takeOption s take = take s' := by
  rw [takeOption, h]

theorem addTo_dryRun {s s' : Side} :
    Item.dryRun.addTo s = some s' ↔ s.dryRun = false ∧ s' = { s with dryRun := true } := by
  simp [Item.addTo, @eq_comm Side s']

theorem pending_of_addTo {s s' : Side} {item : Item} (h : item.addTo s = some s') :
    s'.pending = s.pending := by
  cases item with
  | path o joined v =>
      obtain ⟨-, -, rfl⟩ := Side.set_eq_some_iff.mp h
      exact Side.pending_put s o v
  | verbose more =>
      obtain rfl := Option.some.inj h
      rfl
  | dryRun =>
      obtain ⟨-, rfl⟩ := addTo_dryRun.mp h
      rfl

/-! ## Reading items -/

/-- How the options of a side are read. -/
structure Reads {α : Type} (place : Placement) (read : Side → List Text → Except Request α) :
    Prop where
  word : ∀ {s a w} rest, Argument.of a = .word w → s.awaitsValue = true →
    read s (a :: rest) = read (s.giveValue w) rest
  short : ∀ {s a flags} rest, Argument.of a = .short flags →
    read s (a :: rest) = takeOption s (takeShort place · flags) >>= (read · rest)
  long : ∀ {s a name value} rest, Argument.of a = .long name value →
    read s (a :: rest) = takeOption s (takeLong place · name value) >>= (read · rest)

theorem reads_readFront : Reads .beforeJob readFront where
  word rest ha hs := by rw [readFront, ha]; simp only [hs, if_true]
  short rest ha := by rw [readFront, ha]
  long rest ha := by rw [readFront, ha]

theorem reads_readBehind (job : Job) : Reads (.behind job) (readBehind job) where
  word rest ha hs := by rw [readBehind, ha]; simp only [hs, if_true]
  short rest ha := by rw [readBehind, ha]
  long rest ha := by rw [readBehind, ha]

namespace Reads

variable {α : Type} {place : Placement} {read : Side → List Text → Except Request α}

/-- **An item is read** as what it adds to the options that are settled. -/
theorem item (h : Reads place read) {s s₀ s₁ : Side} (hs : s.settle = some s₀) {item : Item}
    (hfits : item.FitsAt place) (hadd : item.addTo s₀ = some s₁) :
    ∃ s', s'.settle = some s₁ ∧ ∀ rest, read s (item.words ++ rest) = read s' rest := by
  have hpending : s₀.pending = none := Side.pending_of_settle hs
  have hsettled : s₁.settle = some s₁ :=
    Side.settle_of_pending ((pending_of_addTo hadd).trans hpending)
  cases item with
  | path o joined v =>
      cases joined with
      | true =>
          refine ⟨s₁, hsettled, fun rest => ?_⟩
          have hset : s₀.set o v = some s₁ := hadd
          have htake : takePath s₀ o (some v) = .ok s₁ := by rw [takePath, hset]
          rw [Item.words, List.singleton_append, h.long rest (of_joined o v),
            takeOption_of_settle hs, takeLong_path, htake]
          rfl
      | false =>
          -- the value is kept back, and settling adds it
          refine ⟨{ s₀ with pending := some (o, some v) }, ?_, fun rest => ?_⟩
          · have hclear : { s₀ with pending := none } = s₀ := by rw [← hpending]
            show ({ s₀ with pending := none } : Side).set o v = some s₁
            rw [hclear]
            exact hadd
          · rw [Item.words, List.cons_append, List.singleton_append, h.long _ (of_separate o),
              takeOption_of_settle hs, takeLong_path]
            exact h.word rest (of_isValue hfits) rfl
  | verbose more =>
      refine ⟨s₁, hsettled, fun rest => ?_⟩
      obtain rfl := Option.some.inj hadd
      rw [Item.words, List.singleton_append, h.short rest (of_verbose more),
        takeOption_of_settle hs, takeShort_verbose]
      rfl
  | dryRun =>
      refine ⟨s₁, hsettled, fun rest => ?_⟩
      have hplace : place.hasDryRun = true := hfits
      have htake : takeLong place s₀ "dry-run".toList none = .ok s₁ := by
        obtain ⟨hdry, rfl⟩ := addTo_dryRun.mp hadd
        simp [takeLong, hplace, hdry]
      rw [Item.words, List.singleton_append, h.long rest rfl, takeOption_of_settle hs]
      exact congrArg (· >>= (read · rest)) htake

theorem items (h : Reads place read) {s s₀ s₁ : Side} (hs : s.settle = some s₀)
    {items : List Item} (hfits : ∀ item ∈ items, item.FitsAt place)
    (hadd : addAll s₀ items = some s₁) :
    ∃ s', s'.settle = some s₁
      ∧ ∀ rest, read s (items.flatMap Item.words ++ rest) = read s' rest := by
  induction items generalizing s s₀ with
  | nil =>
      obtain rfl := Option.some.inj hadd
      exact ⟨s, hs, fun rest => rfl⟩
  | cons item items ih =>
      obtain ⟨next, hnext, hrest⟩ := Option.bind_eq_some_iff.mp hadd
      obtain ⟨s', hs', hread⟩ := h.item hs (hfits item List.mem_cons_self) hnext
      obtain ⟨s'', hs'', hreads⟩ :=
        ih hs' (fun x hx => hfits x (List.mem_cons_of_mem item hx)) hrest
      refine ⟨s'', hs'', fun rest => ?_⟩
      rw [List.flatMap_cons, List.append_assoc, hread, hreads]

end Reads

/-! ## What a side comes to -/

/-- The value that an item gives to an option. -/
def Item.value? (o : PathOption) : Item → Option Path
  | path o' _ v => if o = o' then some v else none
  | _ => none

def values (o : PathOption) (items : List Item) : List Path := items.filterMap (Item.value? o)

theorem values_cons (o : PathOption) (item : Item) (items : List Item) :
    values o (item :: items) = (item.value? o).toList ++ values o items := by
  rw [values, List.filterMap_cons]
  cases item.value? o <;> rfl

theorem values_append (o : PathOption) (front back : List Item) :
    values o (front ++ back) = values o front ++ values o back :=
  List.filterMap_append

theorem mem_values {o : PathOption} {v : Path} {items : List Item} :
    v ∈ values o items ↔ ∃ joined, .path o joined v ∈ items := by
  rw [values, List.mem_filterMap]
  constructor
  · rintro ⟨item, hitem, hvalue⟩
    cases item with
    | path o' joined w =>
        rw [Item.value?, Option.ite_none_right_eq_some] at hvalue
        obtain ⟨rfl, hw⟩ := hvalue
        obtain rfl := Option.some.inj hw
        exact ⟨joined, hitem⟩
    | verbose more => cases hvalue
    | dryRun => cases hvalue
  · rintro ⟨joined, hitem⟩
    exact ⟨_, hitem, if_pos rfl⟩

theorem exists_addTo {s : Side} {item : Item}
    (hfree : ∀ o v, item.value? o = some v → v ≠ [] ∧ s.get o = none)
    (hdry : item = .dryRun → s.dryRun = false) :
    ∃ s', item.addTo s = some s'
      ∧ (∀ o, (s'.get o).toList = (s.get o).toList ++ (item.value? o).toList)
      ∧ s'.dryRun.toNat = s.dryRun.toNat + if item = .dryRun then 1 else 0 := by
  cases item with
  | path o joined v =>
      obtain ⟨hne, hnone⟩ := hfree o v (if_pos rfl)
      refine ⟨s.put o v, Side.set_eq_some_iff.mpr ⟨hne, hnone, rfl⟩, fun o' => ?_, ?_⟩
      · rw [Side.get_put, Item.value?]
        by_cases ho : o' = o
        · simp [ho, hnone]
        · simp [ho]
      · rw [Side.dryRun_put]
        simp
  | verbose more =>
      refine ⟨_, rfl, fun o => ?_, by simp⟩
      cases o <;> simp [Side.get, Item.value?]
  | dryRun =>
      refine ⟨_, addTo_dryRun.mpr ⟨hdry rfl, rfl⟩, fun o => ?_, by simp [hdry rfl]⟩
      cases o <;> simp [Side.get, Item.value?]

/-- **Items that are given once** can all be added, and in the end each
option has the value given, wherever that was. -/
theorem addAll_eq {s : Side} {items : List Item}
    (honce : ∀ o, ((s.get o).toList ++ values o items).length ≤ 1)
    (hdry : s.dryRun.toNat + items.count .dryRun ≤ 1)
    (hvalues : ∀ o, ∀ v ∈ values o items, v ≠ []) :
    ∃ s', addAll s items = some s'
      ∧ (∀ o, s'.get o = ((s.get o).toList ++ values o items).head?)
      ∧ s'.dryRun.toNat = s.dryRun.toNat + items.count .dryRun := by
  induction items generalizing s with
  | nil =>
      refine ⟨s, rfl, fun o => ?_, rfl⟩
      cases hget : s.get o with
      | none => rfl
      | some v => rfl
  | cons item items ih =>
      have hfree : ∀ o v, item.value? o = some v → v ≠ [] ∧ s.get o = none := by
        intro o v hv
        have hlength := honce o
        rw [values_cons, hv] at hlength
        refine ⟨hvalues o v (by simp [values_cons, hv]), ?_⟩
        cases hget : s.get o with
        | none => rfl
        | some w => simp [hget] at hlength
      have hoff : item = .dryRun → s.dryRun = false := by
        rintro rfl
        rw [List.count_cons_self] at hdry
        exact Bool.toNat_eq_zero.mp (by omega)
      obtain ⟨next, hadd, hget, hflag⟩ := exists_addTo hfree hoff
      -- what is there and what is still to come stays the same altogether
      have hall : ∀ o, (next.get o).toList ++ values o items
          = (s.get o).toList ++ values o (item :: items) := by
        intro o
        rw [hget, values_cons, List.append_assoc]
      have hcount : next.dryRun.toNat + items.count .dryRun
          = s.dryRun.toNat + (item :: items).count .dryRun := by
        rw [hflag, List.count_cons]
        simp only [beq_iff_eq]
        omega
      have hrest : ∀ o, ∀ v ∈ values o items, v ≠ [] := by
        intro o v hv
        refine hvalues o v ?_
        rw [values_cons]
        exact List.mem_append_right _ hv
      obtain ⟨s', hs', hgets, hflags⟩ :=
        ih (fun o => (hall o).symm ▸ honce o) (hcount ▸ hdry) hrest
      refine ⟨s', ?_, fun o => (hgets o).trans (by rw [hall]), hflags.trans hcount⟩
      rw [addAll, hadd]
      exact hs'

/-! ## Orders -/

/-- What is asked for, whatever the arrangement. -/
structure Order where
  job : Job
  root : Option Path
  config : Option Path
  dryRun : Bool
  root_isValue : ∀ v, root = some v → IsValue v
  config_isValue : ∀ v, config = some v → IsValue v
  canDryRun : dryRun = true → job.canDryRun = true

namespace Order

/-- The invocation that an order amounts to. -/
def invocation (order : Order) : Invocation where
  job := order.job
  root := order.root.getD Path.selfName
  config := order.config
  dryRun := order.dryRun

def get (order : Order) : PathOption → Option Path
  | .root => order.root
  | .config => order.config

theorem get_isValue {order : Order} {o : PathOption} {v : Path} (h : order.get o = some v) :
    IsValue v := by
  cases o with
  | root => exact order.root_isValue v h
  | config => exact order.config_isValue v h

/-- The options of an order are shared out to both sides, each of them
once, and with them any number of flags for verbosity. A dry run is asked
for behind the job's name. -/
structure Shared (order : Order) (front back : List Item) : Prop where
  root : values .root (front ++ back) = order.root.toList
  config : values .config (front ++ back) = order.config.toList
  dryRun : (front ++ back).count .dryRun = order.dryRun.toNat
  behind : .dryRun ∉ front

/-- The arguments are an arrangement of an order. -/
def Arranges (order : Order) (args : List Text) : Prop :=
  ∃ front back, order.Shared front back
    ∧ args = front.flatMap Item.words ++ order.job.name :: back.flatMap Item.words

namespace Shared

variable {order : Order} {front back : List Item} (h : order.Shared front back)

include h

theorem values_eq (o : PathOption) : values o front ++ values o back = (order.get o).toList := by
  rw [← values_append]
  cases o with
  | root => exact h.root
  | config => exact h.config

theorem once (o : PathOption) : (values o front).length + (values o back).length ≤ 1 := by
  have hle : (order.get o).toList.length ≤ 1 := by cases order.get o <;> simp
  rw [← h.values_eq, List.length_append] at hle
  exact hle

theorem isValue {o : PathOption} {joined : Bool} {v : Path}
    (hitem : .path o joined v ∈ front ++ back) : IsValue v := by
  have hmem : v ∈ values o (front ++ back) := mem_values.mpr ⟨joined, hitem⟩
  rw [values_append, h.values_eq] at hmem
  exact get_isValue (Option.mem_toList.mp hmem)

theorem count_back : back.count .dryRun = order.dryRun.toNat := by
  rw [← h.dryRun, List.count_append, List.count_eq_zero.mpr h.behind, Nat.zero_add]

theorem fits_front {item : Item} (hitem : item ∈ front) : item.FitsAt .beforeJob := by
  cases item with
  | path o joined v => exact h.isValue (List.mem_append_left back hitem)
  | verbose more => trivial
  | dryRun => exact absurd hitem h.behind

theorem fits_back {item : Item} (hitem : item ∈ back) : item.FitsAt (.behind order.job) := by
  cases item with
  | path o joined v => exact h.isValue (List.mem_append_right front hitem)
  | verbose more => trivial
  | dryRun =>
      refine order.canDryRun ?_
      have hcount := h.count_back
      cases hflag : order.dryRun with
      | true => rfl
      | false =>
          rw [hflag] at hcount
          exact absurd hitem (List.count_eq_zero.mp hcount)

end Shared

end Order

theorem readFront_job {s front back : Side} {job : Job} {rest : List Text}
    (hfront : s.settle = some front) (hback : readBehind job .empty rest = .ok back) :
    readFront s (job.name :: rest) = .ok (.run (combine job front back)) := by
  have hword : Argument.of job.name = .word job.name := by cases job <;> rfl
  have hhelp : (job.name == "help".toList) = false := by cases job <;> rfl
  have hname : Job.ofName? job.name = some job := by cases job <;> rfl
  rw [readFront, hword]
  simp only [Side.awaitsValue_of_settle hfront, hhelp, hname, hback, hfront, Bool.false_eq_true,
    if_false]
  rfl

/-- A value that is given once is found on the side that gives it. -/
theorem or_head?_of_append {front back : List Path} {value : Option Path}
    (h : front ++ back = value.toList) : back.head?.or front.head? = value := by
  cases value with
  | none =>
      obtain ⟨rfl, rfl⟩ := List.append_eq_nil_iff.mp h
      rfl
  | some v =>
      rcases List.append_eq_singleton_iff.mp h with ⟨rfl, rfl⟩ | ⟨rfl, rfl⟩
      · rfl
      · rfl

/-- One side of an arrangement is read as the options among its items. -/
theorem exists_side {α : Type} {place : Placement}
    {read : Side → List Text → Except Request α} (h : Reads place read) {items : List Item}
    (hfits : ∀ item ∈ items, item.FitsAt place) (honce : ∀ o, (values o items).length ≤ 1)
    (hdry : items.count .dryRun ≤ 1) :
    ∃ s s', s'.settle = some s ∧ (∀ o, s.get o = (values o items).head?)
      ∧ s.dryRun.toNat = items.count .dryRun
      ∧ ∀ rest, read .empty (items.flatMap Item.words ++ rest) = read s' rest := by
  have hempty : ∀ o, Side.empty.get o = none := by
    intro o
    cases o <;> rfl
  have hoff : Side.empty.dryRun.toNat = 0 := rfl
  have hvalues : ∀ o, ∀ v ∈ values o items, v ≠ [] := by
    intro o v hv
    obtain ⟨joined, hitem⟩ := mem_values.mp hv
    exact (hfits _ hitem).1
  obtain ⟨s, hadd, hget, hflag⟩ := @addAll_eq .empty items
    (fun o => by rw [hempty]; exact honce o) (by rw [hoff, Nat.zero_add]; exact hdry) hvalues
  obtain ⟨s', hs', hread⟩ := h.items (Side.settle_of_pending rfl) hfits hadd
  refine ⟨s, s', hs', fun o => ?_, ?_, hread⟩
  · rw [hget, hempty]
    rfl
  · rw [hflag, hoff, Nat.zero_add]

theorem combine_of_sides {order : Order} {front back : List Item} (h : order.Shared front back)
    {f b : Side} (hf : ∀ o, f.get o = (values o front).head?)
    (hb : ∀ o, b.get o = (values o back).head?)
    (hdry : b.dryRun.toNat = back.count .dryRun) :
    combine order.job f b = order.invocation := by
  have hvalue : ∀ o, (b.get o).or (f.get o) = order.get o := by
    intro o
    rw [hf, hb]
    exact or_head?_of_append (h.values_eq o)
  have hroot : b.root.or f.root = order.root := hvalue .root
  have hconfig : b.config.or f.config = order.config := hvalue .config
  have hsame : b.dryRun = order.dryRun := by
    have hnat := hdry.trans h.count_back
    revert hnat
    cases b.dryRun <;> cases order.dryRun <;> decide
  rw [combine, hroot, hconfig, hsame, Order.invocation]

/-- **Every arrangement of an order** asks for its invocation. -/
theorem ofArguments_of_arranges {order : Order} {args : List Text} (h : order.Arranges args) :
    Request.ofArguments args = .run order.invocation := by
  obtain ⟨front, back, hshared, rfl⟩ := h
  have hnone : front.count .dryRun = 0 := List.count_eq_zero.mpr hshared.behind
  obtain ⟨f, f', hf', hf, -, hfread⟩ := exists_side reads_readFront
    (fun _ => hshared.fits_front) (fun o => Nat.le_of_add_right_le (hshared.once o))
    (hnone ▸ Nat.zero_le 1)
  obtain ⟨b, b', hb', hb, hdry, hbread⟩ := exists_side (reads_readBehind order.job)
    (fun _ => hshared.fits_back) (fun o => Nat.le_of_add_left_le (hshared.once o))
    (hshared.count_back ▸ Bool.toNat_le order.dryRun)
  have hback : readBehind order.job .empty (back.flatMap Item.words) = .ok b := by
    have hend := hbread []
    rw [List.append_nil] at hend
    rw [hend, readBehind, hb']
    rfl
  rw [Request.ofArguments, hfread, readFront_job hf' hback, combine_of_sides hshared hf hb hdry]

end Arguments

/-! ## Runs -/

namespace Program

open Arguments in
/-- **Arrangements do not matter.** Whichever way an order is arranged, the
arguments are accepted, and the program prints the same, complains of the
same and leaves the same disk behind. -/
theorem run_arranged {order : Order} {args args' : List Text} (h : order.Arranges args)
    (h' : order.Arranges args') (d : Disk) :
    Request.ofArguments args = .run order.invocation ∧ run args d = run args' d := by
  have hask := ofArguments_of_arranges h
  refine ⟨hask, ?_⟩
  rw [run_of_request d hask, run_of_request d (ofArguments_of_arranges h')]

open Arguments in
/-- A root that is called like a job, and a file of settings with an equals
sign in its name. -/
theorem run_arranged_namesakes :
    Request.ofArguments (["--config=a=b", "templates", "--dry-run", "--root", "imports",
        "-vv"].map String.toList) = .run ⟨.templates, "imports".toList, some "a=b".toList, true⟩
      ∧ run (["--config=a=b", "templates", "--dry-run", "--root", "imports",
          "-vv"].map String.toList) .fresh
        = run (["-v", "--root", "imports", "--config", "a=b", "templates",
          "--dry-run"].map String.toList) .fresh := by
  let order : Order :=
    ⟨.templates, some "imports".toList, some "a=b".toList, true,
      by rintro v ⟨⟩; exact ⟨by decide, by decide⟩, by rintro v ⟨⟩; exact ⟨by decide, by decide⟩,
      fun _ => rfl⟩
  have hfirst : order.Arranges (["--config=a=b", "templates", "--dry-run", "--root", "imports",
      "-vv"].map String.toList) :=
    ⟨[.path .config true "a=b".toList],
      [.dryRun, .path .root false "imports".toList, .verbose 1],
      ⟨rfl, rfl, rfl, by decide⟩, rfl⟩
  have hsecond : order.Arranges (["-v", "--root", "imports", "--config", "a=b", "templates",
      "--dry-run"].map String.toList) :=
    ⟨[.verbose 0, .path .root false "imports".toList, .path .config false "a=b".toList],
      [.dryRun], ⟨rfl, rfl, rfl, by decide⟩, rfl⟩
  exact run_arranged hfirst hsecond .fresh

end Program

end Upkeep
