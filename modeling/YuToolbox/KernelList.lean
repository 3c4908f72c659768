import Mathlib.Data.List.Nodup
import Mathlib.Logic.Function.Basic
import Mathlib.Tactic.Common

/-! The kernel's circular doubly linked lists, in a heap whose accesses fail where nothing
is allocated: `list_add`, and `list_for_each_entry_safe` with a body that may free the
entry it stands on. -/
namespace YuToolbox.KernelList

abbrev Addr := ℕ

/-- An object with a `struct list_head` as its first member. -/
structure Cell (α : Type) where
  next : Addr
  prev : Addr
  data : α

/-- NULL is the address 0, where nothing is ever allocated. -/
abbrev Heap (α : Type) := Addr → Option (Cell α)

variable {α : Type}

/-- Write to an object that is there. -/
def store (h : Heap α) (a : Addr) (f : Cell α → Cell α) : Option (Heap α) :=
  (h a).map (fun c => Function.update h a (some (f c)))

/-- `kmalloc` at an address, with whatever stood there before. -/
def alloc (h : Heap α) (a : Addr) (c : Cell α) : Heap α := Function.update h a (some c)

/-- `kfree`; freeing what is not there fails. -/
def free (h : Heap α) (a : Addr) : Option (Heap α) :=
  (h a).map (fun _ => Function.update h a none)

/-- `INIT_LIST_HEAD`. -/
def initListHead (h : Heap α) (a : Addr) : Option (Heap α) :=
  store h a (fun c => { c with next := a, prev := a })

/-- `list_add(new, head)`. -/
def listAdd (h : Heap α) (new head : Addr) : Option (Heap α) := do
  let next ← (h head).map Cell.next
  let h ← store h next (fun c => { c with prev := new })
  let h ← store h new (fun c => { c with next := next })
  let h ← store h new (fun c => { c with prev := head })
  store h head (fun c => { c with next := new })

/-- The loop of `list_for_each_entry_safe` from an entry `pos` whose successor `n` has been
read before the body runs; `none` when the fuel ends first or an access fails. -/
def forEachFrom {σ : Type} (heap : σ → Heap α) (head : Addr) (body : Addr → σ → Option σ) :
    ℕ → Addr → Addr → σ → Option σ
  | 0, _, _, _ => none
  | fuel+1, pos, n, s =>
    if pos = head then some s
    else do
      let s ← body pos s
      let next ← (heap s n).map Cell.next
      forEachFrom heap head body fuel n next s

def listForEachEntrySafe {σ : Type} (heap : σ → Heap α) (head : Addr)
    (body : Addr → σ → Option σ) (fuel : ℕ) (s : σ) : Option σ := do
  let pos ← (heap s head).map Cell.next
  let n ← (heap s pos).map Cell.next
  forEachFrom heap head body fuel pos n s

/-- From `a` the next pointers lead through `xs` to `stop`. -/
def Chain (h : Heap α) : Addr → List Addr → Addr → Prop
  | a, [], stop => (h a).map Cell.next = some stop
  | a, x :: xs, stop => (h a).map Cell.next = some x ∧ Chain h x xs stop

/-- The entries of the list behind a head, in order. -/
structure ListAt (h : Heap α) (head : Addr) (xs : List Addr) : Prop where
  chain : Chain h head xs head
  nodup : (head :: xs).Nodup

section Store

variable {h h' : Heap α} {a : Addr} {f : Cell α → Cell α}

theorem store_exists (ha : (h a).isSome) (f : Cell α → Cell α) : ∃ h', store h a f = some h' := by
  obtain ⟨c, hc⟩ := Option.isSome_iff_exists.mp ha
  exact ⟨_, by rw [store, hc, Option.map_some]⟩

theorem store_self (hs : store h a f = some h') : h' a = (h a).map f := by
  obtain ⟨c, hc, rfl⟩ := Option.map_eq_some_iff.mp hs
  rw [Function.update_self, hc, Option.map_some]

theorem store_of_ne (hs : store h a f = some h') {b : Addr} (hb : b ≠ a) : h' b = h b := by
  obtain ⟨c, -, rfl⟩ := Option.map_eq_some_iff.mp hs
  exact Function.update_of_ne hb _ _

/-- What a store does not write is unchanged everywhere. -/
theorem store_map {β : Type} {g : Cell α → β} (hs : store h a f = some h')
    (hg : ∀ c, g (f c) = g c) (b : Addr) : (h' b).map g = (h b).map g := by
  by_cases hb : b = a
  · subst hb
    rw [store_self hs, Option.map_map]
    apply Option.map_congr
    intro c _
    exact hg c
  · rw [store_of_ne hs hb]

end Store

section Chain

variable {h h' : Heap α} {a stop : Addr} {xs : List Addr}

/-- A chain depends on the next pointers of its members only. -/
theorem Chain.congr (hc : Chain h a xs stop)
    (hnext : ∀ x ∈ a :: xs, (h' x).map Cell.next = (h x).map Cell.next) : Chain h' a xs stop := by
  induction xs generalizing a with
  | nil => exact (hnext a List.mem_cons_self).trans hc
  | cons x xs ih =>
    refine ⟨(hnext a List.mem_cons_self).trans hc.1, ih hc.2 ?_⟩
    intro y hy
    exact hnext y (List.mem_cons_of_mem a hy)

/-- The same chain behind another first member. -/
theorem Chain.move {b : Addr} (hc : Chain h a xs stop)
    (hb : (h' b).map Cell.next = (h a).map Cell.next)
    (hnext : ∀ x ∈ xs, (h' x).map Cell.next = (h x).map Cell.next) : Chain h' b xs stop := by
  cases xs with
  | nil => exact hb.trans hc
  | cons x xs => exact ⟨hb.trans hc.1, hc.2.congr hnext⟩

theorem Chain.next (hc : Chain h a xs stop) : (h a).map Cell.next = some (xs.headD stop) := by
  cases xs with
  | nil => exact hc
  | cons x xs => exact hc.1

theorem Chain.isSome (hc : Chain h a xs stop) : ∀ x ∈ a :: xs, (h x).isSome := by
  induction xs generalizing a with
  | nil =>
    intro x hx
    obtain rfl := List.mem_singleton.mp hx
    rw [← Option.isSome_map, hc.next, Option.isSome_some]
  | cons y xs ih =>
    intro x hx
    rcases List.mem_cons.mp hx with rfl | hx
    · rw [← Option.isSome_map, hc.next, Option.isSome_some]
    · exact ih hc.2 x hx

end Chain

section ListAdd

variable {h : Heap α} {head new : Addr} {xs : List Addr}

/-- What stands first behind the head, or the head itself, is allocated. -/
theorem ListAt.first_isSome (hl : ListAt h head xs) : (h (xs.headD head)).isSome := by
  apply hl.chain.isSome
  cases xs with
  | nil => exact List.mem_cons_self
  | cons x xs => exact List.mem_cons_of_mem head List.mem_cons_self

/-- `list_add` puts an allocated object in front, and changes no data. -/
theorem listAdd_spec (hl : ListAt h head xs) (hnew : (h new).isSome) (hout : new ∉ head :: xs) :
    ∃ h', listAdd h new head = some h' ∧ ListAt h' head (new :: xs) ∧
      ∀ a, (h' a).map Cell.data = (h a).map Cell.data := by
  have hne : new ≠ head := fun he => hout (he ▸ List.mem_cons_self)
  -- a store allocates and frees nothing, so each of the four is possible
  have hlive {h₁ h₂ : Heap α} {a : Addr} {f : Cell α → Cell α} (hs : store h₁ a f = some h₂)
      {b : Addr} (hb : (h₁ b).isSome) : (h₂ b).isSome := by
    have hmap := store_map (g := fun _ => ()) hs (fun _ => rfl) b
    rwa [← Option.isSome_map, hmap, Option.isSome_map]
  have hhead : (h head).isSome := hl.chain.isSome head List.mem_cons_self
  obtain ⟨h₁, hs₁⟩ := store_exists hl.first_isSome (fun c => { c with prev := new })
  obtain ⟨h₂, hs₂⟩ := store_exists (hlive hs₁ hnew) (fun c => { c with next := xs.headD head })
  obtain ⟨h₃, hs₃⟩ := store_exists (hlive hs₂ (hlive hs₁ hnew)) (fun c => { c with prev := head })
  obtain ⟨h₄, hs₄⟩ := store_exists (hlive hs₃ (hlive hs₂ (hlive hs₁ hhead)))
    (fun c => { c with next := new })
  refine ⟨h₄, ?_, ⟨⟨?_, ?_⟩, ?_⟩, fun a => ?_⟩
  · simp only [listAdd, hl.chain.next, Option.bind_eq_bind, Option.bind_some, hs₁, hs₂, hs₃, hs₄]
  · obtain ⟨c, hc⟩ := Option.isSome_iff_exists.mp (hlive hs₃ (hlive hs₂ (hlive hs₁ hhead)))
    rw [store_self hs₄, hc]
    rfl
  · -- the old entries keep their next pointers, and the new one took over that of the head
    apply hl.chain.move
    · obtain ⟨c, hc⟩ := Option.isSome_iff_exists.mp (hlive hs₁ hnew)
      rw [store_of_ne hs₄ hne, store_map hs₃ (fun _ => rfl), store_self hs₂, hc, hl.chain.next]
      rfl
    · intro x hx
      have hxhead : x ≠ head := fun he => (List.nodup_cons.mp hl.nodup).1 (he ▸ hx)
      have hxnew : x ≠ new := fun he => hout (he ▸ List.mem_cons_of_mem head hx)
      rw [store_of_ne hs₄ hxhead, store_map hs₃ (fun _ => rfl), store_of_ne hs₂ hxnew,
        store_map hs₁ (fun _ => rfl)]
  · obtain ⟨hhead, hnodup⟩ := List.nodup_cons.mp hl.nodup
    obtain ⟨-, hnx⟩ := List.ne_and_not_mem_of_not_mem_cons hout
    refine List.nodup_cons.mpr ⟨?_, List.nodup_cons.mpr ⟨hnx, hnodup⟩⟩
    exact List.not_mem_cons_of_ne_of_not_mem hne.symm hhead
  · rw [store_map hs₄ (fun _ => rfl), store_map hs₃ (fun _ => rfl), store_map hs₂ (fun _ => rfl),
      store_map hs₁ (fun _ => rfl)]

end ListAdd

section ForEach

variable {σ : Type} {heap : σ → Heap α} {head : Addr} {body : Addr → σ → Option σ}

/-- The entries still ahead of a traversal are linked as far as the head. -/
def Ahead (h : Heap α) (head : Addr) : List Addr → Prop
  | [] => (h head).isSome
  | x :: xs => Chain h x xs head ∧ (h head).isSome

theorem Ahead.next {h : Heap α} {xs : List Addr} (ha : Ahead h head xs) :
    ∃ n, (h (xs.headD head)).map Cell.next = some n := by
  cases xs with
  | nil =>
    obtain ⟨c, hc⟩ := Option.isSome_iff_exists.mp ha
    exact ⟨c.next, by rw [List.headD_nil, hc, Option.map_some]⟩
  | cons x xs => exact ⟨_, ha.1.next⟩

/-- The loop rule: what each run of the body preserves, with the entry it stands on taken
off those ahead, holds at the end with none ahead. The body may free its own entry, as the
invariant links only those behind it. -/
theorem forEachFrom_run {inv : List Addr → σ → Prop}
    (hahead : ∀ xs s, inv xs s → Ahead (heap s) head xs)
    (hbody : ∀ x xs s, inv (x :: xs) s → ∃ t, body x s = some t ∧ inv xs t)
    {xs : List Addr} (hout : head ∉ xs) {s : σ} (hs : inv xs s) {n : Addr}
    (hn : (heap s (xs.headD head)).map Cell.next = some n) :
    ∃ t, forEachFrom heap head body (xs.length+1) (xs.headD head) n s = some t ∧ inv [] t := by
  induction xs generalizing s n with
  | nil => exact ⟨s, by rw [List.headD_nil, forEachFrom, if_pos rfl], hs⟩
  | cons x xs ih =>
    obtain ⟨hx, hxs⟩ := List.ne_and_not_mem_of_not_mem_cons hout
    obtain ⟨t, ht, hinv⟩ := hbody x xs s hs
    obtain ⟨m, hm⟩ := (hahead xs t hinv).next
    -- the successor was read before the body ran
    obtain rfl : xs.headD head = n := by
      have hnext := (hahead (x :: xs) s hs).1.next
      exact Option.some.inj (hnext.symm.trans hn)
    obtain ⟨u, hu, hend⟩ := ih hxs hinv hm
    refine ⟨u, ?_, hend⟩
    rw [List.headD_cons, List.length_cons, forEachFrom, if_neg (Ne.symm hx), ht]
    simp only [Option.bind_eq_bind, Option.bind_some, hm, hu]

theorem listForEachEntrySafe_run {inv : List Addr → σ → Prop}
    (hahead : ∀ xs s, inv xs s → Ahead (heap s) head xs)
    (hbody : ∀ x xs s, inv (x :: xs) s → ∃ t, body x s = some t ∧ inv xs t)
    {xs : List Addr} {s : σ} (hl : ListAt (heap s) head xs) (hs : inv xs s) :
    ∃ t, listForEachEntrySafe heap head body (xs.length+1) s = some t ∧ inv [] t := by
  obtain ⟨n, hn⟩ := (hahead xs s hs).next
  obtain ⟨t, ht, hend⟩ := forEachFrom_run hahead hbody (List.nodup_cons.mp hl.nodup).1 hs hn
  refine ⟨t, ?_, hend⟩
  simp only [listForEachEntrySafe, hl.chain.next, Option.bind_eq_bind, Option.bind_some, hn, ht]

theorem forEachFrom_mono {fuel fuel' : ℕ} (hle : fuel ≤ fuel') {pos n : Addr} {s t : σ}
    (h : forEachFrom heap head body fuel pos n s = some t) :
    forEachFrom heap head body fuel' pos n s = some t := by
  induction fuel generalizing fuel' pos n s with
  | zero => cases h
  | succ fuel ih =>
    obtain ⟨fuel', rfl⟩ : ∃ k, fuel' = k+1 := ⟨fuel' - 1, by omega⟩
    simp only [forEachFrom] at h ⊢
    split
    · rwa [if_pos ‹_›] at h
    · rw [if_neg ‹_›] at h
      obtain ⟨u, hu, h⟩ := Option.bind_eq_some_iff.mp h
      obtain ⟨m, hm, h⟩ := Option.bind_eq_some_iff.mp h
      simp only [hu, hm, Option.bind_eq_bind, Option.bind_some]
      exact ih (by omega) h

/-- The fuel says only whether a traversal ends, not where. -/
theorem listForEachEntrySafe_unique {fuel fuel' : ℕ} {s t t' : σ}
    (h : listForEachEntrySafe heap head body fuel s = some t)
    (h' : listForEachEntrySafe heap head body fuel' s = some t') : t = t' := by
  obtain ⟨pos, hpos, h⟩ := Option.bind_eq_some_iff.mp h
  obtain ⟨n, hn, h⟩ := Option.bind_eq_some_iff.mp h
  simp only [listForEachEntrySafe, hpos, hn, Option.bind_eq_bind, Option.bind_some] at h'
  have hle := forEachFrom_mono (Nat.le_max_left fuel fuel') h
  have hle' := forEachFrom_mono (Nat.le_max_right fuel fuel') h'
  exact Option.some.inj (hle.symm.trans hle')

end ForEach

section Holds

variable {h : Heap α} {head new : Addr} {es : List (Addr × α)}

/-- The list behind a head holds these entries with their data, and nothing else is
allocated. -/
structure Holds (h : Heap α) (head : Addr) (es : List (Addr × α)) : Prop where
  list : ListAt h head (es.map Prod.fst)
  data : ∀ e ∈ es, (h e.1).map Cell.data = some e.2
  only : ∀ x, x ∉ head :: es.map Prod.fst → h x = none

/-- The same of the entries that a traversal has still ahead. -/
structure HoldsAhead (h : Heap α) (head : Addr) (es : List (Addr × α)) : Prop where
  ahead : Ahead h head (es.map Prod.fst)
  nodup : (head :: es.map Prod.fst).Nodup
  data : ∀ e ∈ es, (h e.1).map Cell.data = some e.2
  only : ∀ x, x ∉ head :: es.map Prod.fst → h x = none

theorem Holds.ahead (hh : Holds h head es) : HoldsAhead h head es := by
  refine ⟨?_, hh.list.nodup, hh.data, hh.only⟩
  have hhead := hh.list.chain.isSome head List.mem_cons_self
  cases es with
  | nil => exact hhead
  | cons e es => exact ⟨hh.list.chain.2, hhead⟩

/-- An initialised head with nothing else in the heap. -/
theorem holds_nil (head : Addr) (d : α) :
    Holds (fun a => if a = head then some ⟨head, head, d⟩ else none) head [] := by
  refine ⟨⟨?_, List.nodup_singleton head⟩, ?_, ?_⟩
  · simp only [Chain, List.map_nil, if_true, Option.map_some]
  · intro e he
    cases he
  · intro x hx
    exact if_neg (List.ne_of_not_mem_cons hx)

/-- What the entry in front has as its data, once it is set. -/
theorem HoldsAhead.bind_data {β : Type} {h : Heap (Option β)} {e : Addr × Option β}
    {es : List (Addr × Option β)} (hh : HoldsAhead h head (e :: es)) :
    (h e.1).bind Cell.data = e.2 := by
  obtain ⟨c, hc, hcd⟩ := Option.map_eq_some_iff.mp (hh.data e List.mem_cons_self)
  rw [hc, Option.bind_some, hcd]

/-- A new object, its list head initialised and its data set, goes in front of the list. -/
theorem Holds.push (hh : Holds h head es) (hout : new ∉ head :: es.map Prod.fst) (c : Cell α)
    (d : α) : ∃ h₁ h₂ h₃, initListHead (alloc h new c) new = some h₁ ∧
      store h₁ new (fun c => { c with data := d }) = some h₂ ∧
      listAdd h₂ new head = some h₃ ∧ Holds h₃ head ((new, d) :: es) := by
  have hnew : (alloc h new c new).isSome := by rw [alloc, Function.update_self, Option.isSome_some]
  obtain ⟨h₁, hs₁⟩ := store_exists hnew (fun c => { c with next := new, prev := new })
  have hnew₁ : (h₁ new).isSome := by rwa [store_self hs₁, Option.isSome_map]
  obtain ⟨h₂, hs₂⟩ := store_exists hnew₁ (fun c => { c with data := d })
  have hnew₂ : (h₂ new).isSome := by rwa [store_self hs₂, Option.isSome_map]
  -- nothing but the new object has changed so far
  have hold {x : Addr} (hx : x ≠ new) : h₂ x = h x := by
    rw [store_of_ne hs₂ hx, store_of_ne hs₁ hx, alloc, Function.update_of_ne hx]
  have hmem {x : Addr} (hx : x ∈ head :: es.map Prod.fst) : h₂ x = h x :=
    hold (fun he => hout (he ▸ hx))
  have hlist : ListAt h₂ head (es.map Prod.fst) := by
    refine ⟨hh.list.chain.congr (fun x hx => ?_), hh.list.nodup⟩
    rw [hmem hx]
  obtain ⟨h₃, hadd, hlist₃, hdata⟩ := listAdd_spec hlist hnew₂ hout
  refine ⟨h₁, h₂, h₃, hs₁, hs₂, hadd, hlist₃, ?_, ?_⟩
  · intro e he
    rcases List.mem_cons.mp he with rfl | he
    · obtain ⟨c₁, hc₁⟩ := Option.isSome_iff_exists.mp hnew₁
      rw [hdata, store_self hs₂, hc₁]
      rfl
    · rw [hdata, hmem (List.mem_cons_of_mem head (List.mem_map_of_mem he))]
      exact hh.data e he
  · intro x hx
    have hxout : x ∉ head :: es.map Prod.fst := fun hm => hx (by
      rcases List.mem_cons.mp hm with rfl | hm
      · exact List.mem_cons_self
      · exact List.mem_cons_of_mem _ (List.mem_cons_of_mem _ hm))
    have hxnew : x ≠ new := fun he => hx (by rw [he]; simp)
    rw [← Option.map_eq_none_iff (f := Cell.data), hdata, hold hxnew, hh.only x hxout]
    rfl

/-- Freeing the entry in front leaves those behind it as they are. -/
theorem HoldsAhead.free {e : Addr × α} (hh : HoldsAhead h head (e :: es)) :
    ∃ h', free h e.1 = some h' ∧ HoldsAhead h' head es := by
  obtain ⟨hhead, hnodup⟩ := List.nodup_cons.mp hh.nodup
  obtain ⟨hfirst, hrest⟩ := List.nodup_cons.mp hnodup
  obtain ⟨hne, hout⟩ := List.ne_and_not_mem_of_not_mem_cons hhead
  obtain ⟨c, hc⟩ := Option.isSome_iff_exists.mp (hh.ahead.1.isSome e.1 List.mem_cons_self)
  refine ⟨Function.update h e.1 none, by rw [KernelList.free, hc, Option.map_some], ?_⟩
  have hmem {x : Addr} (hx : x ∈ es.map Prod.fst) : Function.update h e.1 none x = h x := by
    apply Function.update_of_ne
    rintro rfl
    exact hfirst hx
  have hhd : Function.update h e.1 none head = h head := Function.update_of_ne hne _ _
  constructor
  case nodup => exact List.nodup_cons.mpr ⟨hout, hrest⟩
  case data =>
    intro e' he'
    rw [hmem (List.mem_map_of_mem he')]
    exact hh.data e' (List.mem_cons_of_mem e he')
  case only =>
    intro x hx
    by_cases hxe : x = e.1
    · rw [hxe, Function.update_self]
    · rw [Function.update_of_ne hxe]
      obtain ⟨hxhead, hxes⟩ := List.ne_and_not_mem_of_not_mem_cons hx
      apply hh.only
      exact List.not_mem_cons_of_ne_of_not_mem hxhead (List.not_mem_cons_of_ne_of_not_mem hxe hxes)
  case ahead =>
    have hlive : (Function.update h e.1 none head).isSome := by
      rw [hhd]
      exact hh.ahead.2
    cases es with
    | nil => exact hlive
    | cons e' es =>
      refine ⟨hh.ahead.1.2.congr (fun x hx => ?_), hlive⟩
      rw [hmem hx]

/-- The traversal rule for a list with data: the body frees the entry it stands on and
keeps an invariant of the entries ahead. -/
theorem Holds.forEach_run {σ : Type} (heap : σ → Heap α) (body : Addr → σ → Option σ)
    (inv : List (Addr × α) → σ → Prop) {s : σ} (hh : Holds (heap s) head es) (hs : inv es s)
    (hbody : ∀ e es s, HoldsAhead (heap s) head (e :: es) → inv (e :: es) s →
      ∃ t, body e.1 s = some t ∧ HoldsAhead (heap t) head es ∧ inv es t) :
    ∃ t, listForEachEntrySafe heap head body (es.length+1) s = some t ∧
      HoldsAhead (heap t) head [] ∧ inv [] t := by
  let J : List Addr → σ → Prop := fun xs s =>
    ∃ es : List (Addr × α), xs = es.map Prod.fst ∧ HoldsAhead (heap s) head es ∧ inv es s
  have hahead : ∀ xs s, J xs s → Ahead (heap s) head xs := by
    rintro xs s ⟨es, rfl, hes, -⟩
    exact hes.ahead
  have hstep : ∀ x xs s, J (x :: xs) s → ∃ t, body x s = some t ∧ J xs t := by
    rintro x xs s ⟨es, hxs, hes, hinv⟩
    cases es with
    | nil => cases hxs
    | cons e es =>
      obtain ⟨rfl, rfl⟩ := List.cons.inj hxs
      obtain ⟨t, ht, hes', hinv'⟩ := hbody e es s hes hinv
      exact ⟨t, ht, es, rfl, hes', hinv'⟩
  obtain ⟨t, ht, es', hnil, hes', hinv'⟩ :=
    listForEachEntrySafe_run hahead hstep hh.list ⟨es, rfl, hh.ahead, hs⟩
  rw [List.length_map] at ht
  obtain rfl : es' = [] := List.map_eq_nil_iff.mp hnil.symm
  exact ⟨t, ht, hes', hinv'⟩

end Holds

section Ring

variable {h : Heap α} {a head stop y : Addr} {xs ys : List Addr}

/-- A chain can be cut at each of its members. -/
theorem chain_append :
    Chain h a (xs ++ y :: ys) stop ↔ Chain h a xs y ∧ Chain h y ys stop := by
  induction xs generalizing a with
  | nil => exact Iff.rfl
  | cons x xs ih => simp only [List.cons_append, Chain, ih, and_assoc]

/-- Objects that are linked to a ring, none of them its head. -/
def IsRing (h : Heap α) : List Addr → Prop
  | [] => True
  | x :: xs => ListAt h x xs

/-- A ring may be entered at each of its members, which is then the head of the others. -/
theorem IsRing.enter (hr : IsRing h (xs ++ y :: ys)) : ListAt h y (ys ++ xs) := by
  cases xs with
  | nil => rwa [List.append_nil]
  | cons x xs =>
    obtain ⟨hchain, hnodup⟩ := hr
    obtain ⟨hfirst, hrest⟩ := chain_append.mp hchain
    refine ⟨chain_append.mpr ⟨hrest, hfirst⟩, ?_⟩
    have hperm : ((x :: xs) ++ (y :: ys)).Perm ((y :: ys) ++ (x :: xs)) := List.perm_append_comm
    exact hperm.nodup_iff.mp hnodup

end Ring

section Break

variable {σ : Type} {h : Heap α} {head : Addr} {body : α → σ → Option (σ × Bool)}

/-- The loop of `list_for_each_safe` with a body that leaves the list alone and may `break`. -/
def forEachBreak (h : Heap α) (head : Addr) (body : α → σ → Option (σ × Bool)) :
    ℕ → Addr → Addr → σ → Option σ
  | 0, _, _, _ => none
  | fuel+1, pos, n, s =>
    if pos = head then some s
    else do
      let entry ← (h pos).map Cell.data
      let (s, leaves) ← body entry s
      if leaves then some s
      else
        let next ← (h n).map Cell.next
        forEachBreak h head body fuel n next s

def listForEachSafe (h : Heap α) (head : Addr) (body : α → σ → Option (σ × Bool)) (fuel : ℕ)
    (s : σ) : Option σ := do
  let pos ← (h head).map Cell.next
  let n ← (h pos).map Cell.next
  forEachBreak h head body fuel pos n s

/-- The same over the entries themselves. -/
def foldEntries (body : α → σ → Option (σ × Bool)) : List α → σ → Option σ
  | [], s => some s
  | x :: xs, s => do
    let (s, leaves) ← body x s
    if leaves then some s else foldEntries body xs s

/-- The entries that are ahead of the loop, with the head behind the last of them. -/
theorem forEachBreak_ahead {es : List (Addr × α)} {n : Addr} {fuel : ℕ}
    (hahead : Ahead h head (es.map Prod.fst)) (hout : head ∉ es.map Prod.fst)
    (hdata : ∀ e ∈ es, (h e.1).map Cell.data = some e.2)
    (hn : (h ((es.map Prod.fst).headD head)).map Cell.next = some n) (hfuel : es.length < fuel)
    (s : σ) : forEachBreak h head body fuel ((es.map Prod.fst).headD head) n s =
      foldEntries body (es.map Prod.snd) s := by
  obtain ⟨fuel, rfl⟩ : ∃ k, fuel = k+1 := ⟨fuel-1, by omega⟩
  induction es generalizing n fuel s with
  | nil => rw [List.map_nil, List.headD_nil, forEachBreak, if_pos rfl, List.map_nil, foldEntries]
  | cons e es ih =>
    rw [List.map_cons] at hahead hout hn ⊢
    rw [List.headD_cons] at hn ⊢
    obtain ⟨hne, hout⟩ := List.ne_and_not_mem_of_not_mem_cons hout
    have hentry := hdata e List.mem_cons_self
    have htail : Ahead h head (es.map Prod.fst) := by
      cases es with
      | nil => exact hahead.2
      | cons e' es => exact ⟨hahead.1.2, hahead.2⟩
    obtain ⟨m, hm⟩ := htail.next
    obtain rfl : (es.map Prod.fst).headD head = n :=
      Option.some.inj (hahead.1.next.symm.trans hn)
    rw [List.length_cons] at hfuel
    obtain ⟨fuel, rfl⟩ : ∃ k, fuel = k+1 := ⟨fuel-1, by omega⟩
    have hgo := fun t => ih htail hout (fun x hx => hdata x (List.mem_cons_of_mem e hx)) hm t
      fuel (by omega)
    rw [forEachBreak, if_neg hne.symm, List.map_cons, foldEntries]
    simp only [hentry, hm, Option.bind_eq_bind, Option.bind_some, hgo]

/-- The loop over a list is the one over its data, once it has the fuel. -/
theorem listForEachSafe_eq {es : List (Addr × α)} (hl : ListAt h head (es.map Prod.fst))
    (hdata : ∀ e ∈ es, (h e.1).map Cell.data = some e.2) {fuel : ℕ} (hfuel : es.length < fuel)
    (s : σ) : listForEachSafe h head body fuel s = foldEntries body (es.map Prod.snd) s := by
  have hahead : Ahead h head (es.map Prod.fst) := by
    have hhead := hl.chain.isSome head List.mem_cons_self
    cases es with
    | nil => exact hhead
    | cons e es => exact ⟨hl.chain.2, hhead⟩
  obtain ⟨n, hn⟩ := hahead.next
  have hout := (List.nodup_cons.mp hl.nodup).1
  simp only [listForEachSafe, hl.chain.next, hn, Option.bind_eq_bind, Option.bind_some]
  exact forEachBreak_ahead hahead hout hdata hn hfuel s

end Break

end YuToolbox.KernelList
