import DistLabs.Porcupine.Entries
import Mathlib.Tactic.Ring

/-!
# The search finds a linearization if there is one

What is left to be taken is determined by the bits that are set (`remaining`). `Stack` says how the
calls on the stack were taken: each was the first one, in the list at its time, of which it was not
known that it leads nowhere. A pair of bits and state in the cache leads nowhere or is on the stack
(`CacheOK`), and what is on the stack has fewer bits than what the next call leads to, so a call
whose result is in the cache leads nowhere. Along the search a number grows that has a bound
(`rank`), so it ends.
-/

namespace DistLabs.Porcupine

open Lib

variable {σ ι ο : Type}

/-! ## What is left -/

section
variable (model : Model σ ι ο) (nodes : List (Node ι ο))

/-- The nodes, out of the first `len`, whose operations are not in the set. -/
def remaining (len : Nat) (b : Bitset) : List Nat :=
  (List.range len).filter fun a => b.get (idOf nodes a) = some false

/-- The model executes the operation of a call. -/
def runCall (s : σ) (a : Nat) : Option σ := do
  let node ← nodes[a]?
  let input ← node.value.input?
  let output ← (← nodes[← node.matching]?).value.output?
  if (model.step s input output).1 then some (model.step s input output).2 else none

/-- All calls are taken out of a list. -/
def Completes (l : List Nat) (s : σ) : Prop :=
  ∃ order t, Takes (mate nodes) (runCall model nodes) l s order [] t

/-- To take the call next leads nowhere. -/
def Fails (l : List Nat) (s : σ) (a : Nat) : Prop :=
  (mate nodes a).isSome ∧ ∀ s', runCall model nodes s a = some s' →
    ¬ Completes model nodes (without (mate nodes) l a) s'

end

/-- `Equal` only holds of states that the model does not tell apart. -/
def Model.EqualOk (model : Model σ ι ο) : Prop :=
  ∀ s s', model.equal s s' = true → ∀ input output, (model.step s input output).1 = true →
    (model.step s' input output).1 = true ∧
      model.equal (model.step s input output).2 (model.step s' input output).2 = true

section
variable {model : Model σ ι ο} {nodes : List (Node ι ο)} {l xs ys : List Nat} {s s' : σ} {a : Nat}

/-- What it takes to execute a call. -/
theorem runCall_eq_some {t : σ} : runCall model nodes s a = some t ↔
    ∃ node input m node' output, nodes[a]? = some node ∧ node.value.input? = some input ∧
      node.matching = some m ∧ nodes[m]? = some node' ∧ node'.value.output? = some output ∧
      (model.step s input output).1 = true ∧ (model.step s input output).2 = t := by
  simp only [runCall, Option.bind_eq_bind, Option.bind_eq_some_iff, Option.ite_none_right_eq_some,
    Option.some.injEq]
  constructor
  · rintro ⟨node, hnode, input, hinput, m, hm, node', hnode', output, houtput, hok, ht⟩
    exact ⟨node, input, m, node', output, hnode, hinput, hm, hnode', houtput, hok, ht⟩
  · rintro ⟨node, input, m, node', output, hnode, hinput, hm, hnode', houtput, hok, ht⟩
    exact ⟨node, hnode, input, hinput, m, hm, node', hnode', output, houtput, hok, ht⟩

/-- If nothing that can be taken first leads anywhere, then nothing does. -/
theorem not_completes (hnodup : (xs ++ a :: ys).Nodup)
    (hxs : ∀ x ∈ xs, Fails model nodes (xs ++ a :: ys) s x) (ha : mate nodes a = none) :
    ¬ Completes model nodes (xs ++ a :: ys) s := by
  rintro ⟨order, t, h⟩
  generalize hl : xs ++ a :: ys = l at h
  generalize hnil : ([] : List Nat) = l' at h
  cases h with
  | nil => simp [← hnil] at hl
  | @cons _ us vs order _ _ s₁ _ x hl' hus hx hrun h =>
    -- the call is before the return `a`
    have hmem : x ∈ xs := by
      rw [← hl] at hl'
      have hx' : x ∈ xs ++ a :: ys := by
        rw [hl']
        simp
      rcases List.mem_append.1 hx' with hx' | hx'
      · exact hx'
      · rcases List.mem_cons.1 hx' with rfl | hx'
        · rw [ha] at hx
          cases hx
        · have hbefore : [a, x].Sublist (xs ++ a :: ys) :=
            ((List.singleton_sublist.2 hx').cons_cons a).trans (List.sublist_append_right ..)
          rw [hl', pair_sublist_iff (hl' ▸ hnodup)] at hbefore
          have hcall := hus a hbefore
          rw [ha] at hcall
          cases hcall
    subst hnil
    exact (hxs x hmem).2 s₁ hrun (hl ▸ ⟨order, t, h⟩)

/-- States that `Equal` joins lead to the same. -/
theorem completes_of_equal (hequal : model.EqualOk) (heq : model.equal s s' = true)
    (h : Completes model nodes l s) : Completes model nodes l s' := by
  have hsim : ∀ s s' a t, model.equal s s' = true → runCall model nodes s a = some t →
      ∃ t', runCall model nodes s' a = some t' ∧ model.equal t t' = true := by
    intro s s' a t hss' hrun
    obtain ⟨node, input, m, node', output, hnode, hinput, hm, hnode', houtput, hok, rfl⟩ :=
      runCall_eq_some.1 hrun
    obtain ⟨hok', heq'⟩ := hequal s s' hss' input output hok
    exact ⟨_, runCall_eq_some.2
      ⟨node, input, m, node', output, hnode, hinput, hm, hnode', houtput, hok', rfl⟩, heq'⟩
  obtain ⟨order, t, h⟩ := h
  obtain ⟨t', h'⟩ := h.of_sim hsim heq
  exact ⟨order, t', h'⟩

/-! ## Links -/

/-- `lift` takes out a call and its return, and `unlift` puts them back. -/
theorem lift_linked {links : Links} {head m : Nat} {us vs : List Nat}
    (h : links.Linked (head :: (xs ++ a :: (us ++ m :: vs))))
    (hnodup : (head :: (xs ++ a :: (us ++ m :: vs))).Nodup) :
    ∃ links', lift links a m = some links' ∧ links'.Linked (head :: (xs ++ (us ++ vs))) ∧
      unlift links' a m = some links := by
  obtain ⟨k₁, hk₁, hlinked₁, hrelink₁, hnext₁, -⟩ := h.unlink hnodup
  have hnodup₁ : (head :: ((xs ++ us) ++ m :: vs)).Nodup := by
    refine hnodup.sublist ?_
    rw [List.append_assoc]
    exact ((List.sublist_cons_self ..).append_left xs).cons_cons head
  rw [← List.append_assoc] at hlinked₁
  obtain ⟨k₂, hk₂, hlinked₂, hrelink₂, -⟩ := hlinked₁.unlink hnodup₁
  have hnext : ∃ b, links.next a = some b := by
    rw [h.tail.right.next_eq]
    cases us <;> exact ⟨_, rfl⟩
  obtain ⟨b, hb⟩ := hnext
  refine ⟨k₂, ?_, ?_, ?_⟩
  · simp only [lift, hb, hk₁, hk₂, Option.bind_eq_bind, Option.bind_some]
  · rwa [List.append_assoc] at hlinked₂
  · simp only [unlift, hrelink₂, hnext₁, hb, hrelink₁, Option.bind_eq_bind, Option.bind_some]

end

/-! ## The stack -/

/-- The nodes of a history. -/
abbrev nodesOf (entries : List (Entry ι ο)) : List (Node ι ο) := (makeLinkedEntries entries).nodes

/-- The calls and returns whose operations are not in the set. -/
abbrev left (entries : List (Entry ι ο)) (b : Bitset) : List Nat :=
  remaining (nodesOf entries) entries.length b

/-- The calls on the stack were taken one after the other, each as the first one that was not known
to lead nowhere. `opens` are the sets and states that they led to, and `places` where they were in
the list. -/
inductive Stack (model : Model σ ι ο) (entries : List (Entry ι ο)) (n : Nat) :
    List (CallsEntry σ) → Links → Bitset → σ → List (Bitset × σ) → List Nat → Prop where
  | root : Stack model entries n [] (Search.start model entries).links
    (newBitset n) model.init [] []
  | call {calls : List (CallsEntry σ)} {links links' : Links} {b b' : Bitset} {s s' : σ}
      {opens : List (Bitset × σ)} {places xs ys : List Nat} {a m : Nat}
      (h : Stack model entries n calls links b s opens places)
      (hleft : left entries b = xs ++ a :: ys)
      (hxs : ∀ x ∈ xs, Fails model (nodesOf entries) (left entries b) s x)
      (hm : mate (nodesOf entries) a = some m)
      (hrun : runCall model (nodesOf entries) s a = some s')
      (hset : b.set (idOf (nodesOf entries) a) = some b') (hlift : lift links a m = some links')
      (hunlift : unlift links' a m = some links) :
      Stack model entries n (⟨a, s⟩ :: calls) links' b' s' ((b', s') :: opens)
        (xs.length :: places)

section
variable {model : Model σ ι ο} {entries : List (Entry ι ο)} {n a m : Nat} {b b' : Bitset}
  {calls : List (CallsEntry σ)} {links : Links} {s : σ} {opens : List (Bitset × σ)}
  {places xs ys : List Nat}

/-- What is left are the entries whose operation's bit is clear. -/
theorem mem_left :
    a ∈ left entries b ↔ a < entries.length ∧ b.get (idOf (nodesOf entries) a) = some false := by
  rw [left, remaining, List.mem_filter, List.mem_range, decide_eq_true_iff]

/-- The head of the list and what is left are different nodes. -/
theorem nodup_left : (entries.length :: left entries b).Nodup := by
  refine List.nodup_cons.2 ⟨fun hmem => ?_, List.nodup_range.filter _⟩
  exact Nat.lt_irrefl _ (mem_left.1 hmem).1

/-- All operations are left at the beginning. -/
theorem left_newBitset (h : WellFormed entries n) :
    left entries (newBitset n) = List.range entries.length := by
  refine List.filter_eq_self.2 fun a ha => ?_
  rw [List.mem_range, h.length] at ha
  exact decide_eq_true (Bitset.get_newBitset (h.idOf_lt ha))

/-- To put an operation into the set takes out its call and its return. -/
theorem left_set (h : WellFormed entries n) (hm : mate (nodesOf entries) a = some m)
    (hset : b.set (idOf (nodesOf entries) a) = some b') :
    left entries b' = without (mate (nodesOf entries)) (left entries b) a := by
  rw [left, left, remaining, remaining, without, List.filter_filter]
  refine List.filter_congr fun c hc => ?_
  rw [List.mem_range, h.length] at hc
  rw [Bitset.get_set hset, ← Bool.decide_and, decide_eq_decide, hm]
  have hiff := h.idOf_eq_iff hm hc
  by_cases hid : idOf (nodesOf entries) c = idOf (nodesOf entries) a
  · rw [if_pos hid]
    rcases hiff.1 hid with rfl | rfl <;> simp
  · rw [if_neg hid]
    have hnot := mt hiff.2 hid
    rw [not_or] at hnot
    simp [hnot.1, Ne.symm hnot.2]

namespace Stack

/-- The operations have their bits, so no bit is out of range. -/
theorem isSome_get (hs : Stack model entries n calls links b s opens places) {q : Nat}
    (hq : q < n) :
    (b.get q).isSome := by
  induction hs with
  | root =>
    rw [Bitset.get_newBitset hq]
    rfl
  | call _ _ _ _ _ hset _ _ ih =>
    rw [Bitset.get_set hset]
    split
    · rfl
    · exact ih

/-- What is left is a list of calls and returns. -/
theorem paired (h : WellFormed entries n)
    (hs : Stack model entries n calls links b s opens places) :
    Paired (mate (nodesOf entries)) (left entries b) := by
  induction hs with
  | root =>
    rw [left_newBitset h, h.length]
    exact h.paired
  | call _ hleft _ hm _ hset _ _ ih =>
    rw [left_set h hm hset]
    exact ih.without (by rw [hleft]; simp) hm

/-- What is left is linked. -/
theorem linked (h : WellFormed entries n)
    (hs : Stack model entries n calls links b s opens places) :
    links.Linked (entries.length :: left entries b) := by
  induction hs with
  | root =>
    rw [left_newBitset h]
    exact start_linked model entries
  | @call _ _ _ b _ _ _ _ _ _ _ _ _ hs hleft _ hm _ hset hlift _ ih =>
    have hpaired := hs.paired h
    have hnodup : (entries.length :: left entries b).Nodup := nodup_left
    rw [left_set h hm hset]
    rw [hleft] at ih hpaired hnodup ⊢
    obtain ⟨us, vs, rfl, hwithout⟩ := hpaired.exists_split hm
    obtain ⟨links', hlift', hlinked, -⟩ := lift_linked ih hnodup
    rw [hlift] at hlift'
    cases hlift'
    rwa [hwithout]

/-- Every call on the stack takes two nodes out of the list. -/
theorem length_eq (h : WellFormed entries n)
    (hs : Stack model entries n calls links b s opens places) :
    (left entries b).length + 2 * calls.length = 2 * n := by
  induction hs with
  | root => rw [left_newBitset h, List.length_range, h.length]; rfl
  | call hs hleft _ hm _ hset _ _ ih =>
    have hpaired := hs.paired h
    rw [left_set h hm hset]
    rw [hleft] at ih hpaired ⊢
    obtain ⟨us, vs, rfl, hwithout⟩ := hpaired.exists_split hm
    rw [hwithout]
    simp only [List.length_append, List.length_cons] at ih ⊢
    omega

/-- The calls on the stack are the beginning of an order. -/
theorem takes (h : WellFormed entries n)
    (hs : Stack model entries n calls links b s opens places) :
    Takes (mate (nodesOf entries)) (runCall model (nodesOf entries))
      (List.range entries.length) model.init
      (calls.reverse.map CallsEntry.entry) (left entries b) s := by
  induction hs with
  | root =>
    rw [left_newBitset h]
    exact .nil
  | call hs hleft hxs hm hrun hset _ _ ih =>
    rw [List.reverse_cons, List.map_append, left_set h hm hset]
    refine ih.trans (.cons hleft (fun x hx => (hxs x hx).1) ?_ hrun .nil)
    rw [hm]
    rfl

/-- On the stack there are no sets with more operations. -/
theorem length_le (h : WellFormed entries n)
    (hs : Stack model entries n calls links b s opens places) :
    ∀ x ∈ opens, (left entries b).length ≤ (left entries x.1).length := by
  induction hs with
  | root => exact fun x hx => absurd hx List.not_mem_nil
  | call hs hleft _ hm _ hset _ _ ih =>
    intro x hx
    rcases List.mem_cons.1 hx with rfl | hx
    · exact Nat.le_refl _
    · refine Nat.le_trans ?_ (ih x hx)
      rw [left_set h hm hset]
      exact List.length_filter_le ..

/-- There is a place for each call on the stack. -/
theorem length_places (hs : Stack model entries n calls links b s opens places) :
    places.length = calls.length := by
  induction hs with
  | root => rfl
  | call _ _ _ _ _ _ _ _ ih => exact congrArg (· + 1) ih

/-- A place is one in the list. -/
theorem place_le (h : WellFormed entries n)
    (hs : Stack model entries n calls links b s opens places) :
    ∀ p ∈ places, p ≤ 2 * n := by
  induction hs with
  | root => exact fun p hp => absurd hp List.not_mem_nil
  | call hs hleft _ _ _ _ _ _ ih =>
    intro p hp
    rcases List.mem_cons.1 hp with rfl | hp
    · have hlength := hs.length_eq h
      rw [hleft, List.length_append] at hlength
      omega
    · exact ih p hp

/-- No call was taken. -/
theorem nil_inv (hs : Stack model entries n [] links b s opens places) :
    b = newBitset n ∧ s = model.init := by
  cases hs
  exact ⟨rfl, rfl⟩

/-- How the last call was taken. -/
theorem call_inv {top : CallsEntry σ}
    (hs : Stack model entries n (top :: calls) links b' s opens places) :
    ∃ links₀ b opens₀ places₀ xs ys m, opens = (b', s) :: opens₀ ∧ places = xs.length :: places₀ ∧
      Stack model entries n calls links₀ b top.state opens₀ places₀ ∧
      left entries b = xs ++ top.entry :: ys ∧
      (∀ x ∈ xs, Fails model (nodesOf entries) (left entries b) top.state x) ∧
      mate (nodesOf entries) top.entry = some m ∧
      runCall model (nodesOf entries) top.state top.entry = some s ∧
      b.set (idOf (nodesOf entries) top.entry) = some b' ∧
        unlift links top.entry m = some links₀ := by
  cases hs with
  | call hs hleft hxs hm hrun hset _ hunlift =>
    exact ⟨_, _, _, _, _, _, _, rfl, rfl, hs, hleft, hxs, hm, hrun, hset, hunlift⟩

/-- What is on the stack are entries. -/
theorem entry_lt (hs : Stack model entries n calls links b s opens places) :
    ∀ v ∈ calls, v.entry < entries.length := by
  induction hs with
  | root => exact fun v hv => absurd hv List.not_mem_nil
  | call _ hleft _ _ _ _ _ _ ih =>
    intro v hv
    rcases List.mem_cons.1 hv with rfl | hv
    · exact (mem_left.1 (by rw [hleft]; simp)).1
    · exact ih v hv

/-- The ids of the calls on the stack. -/
theorem seq_eq (hs : Stack model entries n calls links b s opens places) :
    seq (nodesOf entries) calls = (calls.reverse.map CallsEntry.entry).map
      (idOf (nodesOf entries)) := by
  rw [seq, List.map_map, ← List.filterMap_eq_map]
  refine List.filterMap_congr fun v hv => ?_
  have hlt := hs.entry_lt v (List.mem_reverse.1 hv)
  rw [← linkEntries_nodes_length 0 entries] at hlt
  simp only [Function.comp_apply, idOf, nodesOf, makeLinkedEntries, List.getElem?_eq_getElem hlt,
    Option.map_some, Option.getD_some]

end Stack

end

/-! ## Partial linearizations -/

/-- Operations that can be executed in this order, before all others. -/
def IsPartial (model : Model σ ι ο) (entries : List (Entry ι ο)) (ids : List Nat) : Prop :=
  ∃ order rest t, Takes (mate (nodesOf entries)) (runCall model (nodesOf entries))
    (List.range entries.length) model.init order rest t ∧ ids = order.map (idOf (nodesOf entries))

/-- What is recorded for an operation is a partial linearization that it is in. -/
structure LongestOK (model : Model σ ι ο) (entries : List (Entry ι ο)) (n : Nat)
    (longest : Longest) : Prop where
  length : longest.length = n
  isPartial : ∀ id l, longest[id]? = some (some l) → id ∈ l ∧ IsPartial model entries l

/-- The loop over the calls changes entries of `longest` to the whole sequence. -/
theorem foldlM_updateEntry {seq ids : List Nat} {longest : Longest} (hids : ∀ id ∈ ids, id ∈ seq)
    (hlt : ∀ id ∈ ids, id < longest.length) :
    ∃ longest', ids.foldlM (updateEntry seq) longest = some longest' ∧
      longest'.length = longest.length ∧
      ∀ id l, longest'[id]? = some (some l) →
        longest[id]? = some (some l) ∨ l = seq ∧ id ∈ seq := by
  induction ids generalizing longest with
  | nil => exact ⟨longest, rfl, rfl, fun _ _ h => .inl h⟩
  | cons id ids ih =>
    have hid := hlt id List.mem_cons_self
    have hrest : ∀ id ∈ ids, id ∈ seq := fun id' hid' => hids id' (List.mem_cons_of_mem _ hid')
    have hrest' : ∀ id ∈ ids, id < longest.length :=
      fun id' hid' => hlt id' (List.mem_cons_of_mem _ hid')
    simp only [List.foldlM_cons, updateEntry, List.getElem?_eq_getElem hid, Option.bind_eq_bind,
      Option.bind_some, Option.pure_def]
    split
    swap
    · exact ih hrest hrest'
    · have hset : ∀ id' ∈ ids, id' < (longest.set id (some seq)).length := by rwa [List.length_set]
      obtain ⟨longest', hfold, hlength, hspec⟩ := ih hrest hset
      refine ⟨longest', hfold, hlength.trans List.length_set, fun id' l hl => ?_⟩
      rcases hspec id' l hl with hold | hnew
      · rw [List.getElem?_set] at hold
        split at hold
        · next heq =>
          subst heq
          cases hold
          exact .inr ⟨rfl, hids id List.mem_cons_self⟩
        · exact .inl hold
      · exact .inr hnew

/-! ## The loop -/

theorem Cache.bucket_empty (hash : BitVec 64) : Cache.bucket (∅ : Cache σ) hash = [] := by
  rw [Cache.bucket, Std.ExtTreeMap.getElem?_empty]
  rfl

/-- What is in the cache after an assignment. -/
theorem Cache.bucket_insert (cache : Cache σ) (k hash : BitVec 64) (l : List (CacheEntry σ)) :
    Cache.bucket (cache.insert k l) hash = if hash = k then l else cache.bucket hash := by
  rw [Cache.bucket, GoMap.getElem?_insert]
  split <;> rfl

/-- What is in the cache leads nowhere, or is on the stack. -/
def CacheOK (model : Model σ ι ο) (entries : List (Entry ι ο)) (cache : Cache σ)
    (opens : List (Bitset × σ)) : Prop :=
  ∀ (hash : BitVec 64) (e : CacheEntry σ), e ∈ cache.bucket hash →
    ¬ Completes model (nodesOf entries) (left entries e.linearized) e.state ∨
      (e.linearized, e.state) ∈ opens

/-- The search at a node: the ones before it lead nowhere. -/
structure Inv (model : Model σ ι ο) (entries : List (Entry ι ο)) (n : Nat)
    (opens : List (Bitset × σ)) (places xs rest : List Nat) (c : Search σ) : Prop where
  stack : Stack model entries n c.calls c.links c.linearized c.state opens places
  split : left entries c.linearized = xs ++ rest
  entry : c.entry = rest.head?
  fails : ∀ x ∈ xs, Fails model (nodesOf entries) (left entries c.linearized) c.state x
  cache : CacheOK model entries c.cache opens
  longest : LongestOK model entries n c.longest

/-- How far a search is: the places of the calls on the stack and in the list are the digits of a
number. -/
def rank (n : Nat) : List Nat → Nat
  | [] => 0
  | p :: places => rank n places + (p + 1) * (2 * n + 2) ^ (n - places.length)

section
variable {model : Model σ ι ο} {entries : List (Entry ι ο)} {n a m : Nat}
  {opens : List (Bitset × σ)}
  {places xs ys rest : List Nat} {c : Search σ}

/-- The search goes on behind a call that leads nowhere. -/
theorem Inv.advance (h : WellFormed entries n)
    (hinv : Inv model entries n opens places xs (a :: ys) c)
    (hfails : Fails model (nodesOf entries) (left entries c.linearized) c.state a) :
    Inv model entries n opens places (xs ++ [a]) ys { c with entry := c.links.next a } where
  stack := hinv.stack
  split := by
    rw [hinv.split, List.append_assoc]
    rfl
  entry := by
    have hlinked := hinv.stack.linked h
    rw [hinv.split] at hlinked
    exact hlinked.tail.right.next_eq
  fails x hx := by
    rcases List.mem_append.1 hx with hx | hx
    · exact hinv.fails x hx
    · rw [List.mem_singleton.1 hx]
      exact hfails
  cache := hinv.cache
  longest := hinv.longest

/-- The cache knows a result: it leads nowhere. -/
theorem Inv.fails_of_cacheContains (h : WellFormed entries n) (hequal : model.EqualOk)
    (hinv : Inv model entries n opens places xs (a :: ys) c)
    (hm : mate (nodesOf entries) a = some m)
    {b : Bitset} {s : σ} (hset : c.linearized.set (idOf (nodesOf entries) a) = some b)
    (hhit : cacheContains model c.cache ⟨b, s⟩ = true) :
    ¬ Completes model (nodesOf entries)
      (without (mate (nodesOf entries)) (left entries c.linearized) a) s := by
  obtain ⟨e, he, heq⟩ := List.any_eq_true.1 hhit
  rw [Bool.and_eq_true, Bitset.equals_iff] at heq
  obtain ⟨heq, hstate⟩ := heq
  simp only at heq hstate he
  rw [← left_set h hm hset, heq]
  intro hcompletes
  rcases hinv.cache _ e he with hdead | hopen
  · exact hdead (completes_of_equal hequal hstate hcompletes)
  · -- what is on the stack has fewer operations
    have hle := hinv.stack.length_le h _ hopen
    have hpaired := hinv.stack.paired h
    simp only at hle
    rw [← heq, left_set h hm hset] at hle
    rw [hinv.split] at hle hpaired
    obtain ⟨us, vs, rfl, hwithout⟩ := hpaired.exists_split hm
    rw [hwithout] at hle
    simp only [List.length_append, List.length_cons] at hle
    omega

/-- A call is taken. -/
theorem Inv.take (h : WellFormed entries n)
    (hinv : Inv model entries n opens places xs (a :: ys) c)
    (hm : mate (nodesOf entries) a = some m) {b : Bitset} {s : σ} {links : Links}
    (hset : c.linearized.set (idOf (nodesOf entries) a) = some b)
    (hrun : runCall model (nodesOf entries) c.state a = some s)
    (hlift : lift c.links a m = some links) (hunlift : unlift links a m = some c.links) :
    Inv model entries n ((b, s) :: opens) (xs.length :: places) [] (left entries b)
      { c with
        links
        entry := links.next entries.length
        linearized := b
        cache := c.cache.insert b.hash (c.cache.bucket b.hash ++ [⟨b, s⟩])
        calls := ⟨a, c.state⟩ :: c.calls
        state := s } := by
  have hstack := Stack.call hinv.stack hinv.split hinv.fails hm hrun hset hlift hunlift
  refine ⟨hstack, rfl, (hstack.linked h).next_eq, fun x hx => absurd hx List.not_mem_nil, ?_,
    hinv.longest⟩
  intro hash e he
  simp only [Cache.bucket_insert] at he
  have hold : e ∈ c.cache.bucket hash ∨ e = ⟨b, s⟩ := by
    split at he
    · next heq =>
      rw [heq]
      simpa using he
    · exact .inl he
  rcases hold with hold | rfl
  · exact (hinv.cache hash e hold).imp id (List.mem_cons_of_mem _)
  · exact .inr List.mem_cons_self

/-! ## Progress -/

/-- Going on in the list is progress. -/
theorem rank_advance (n p : Nat) (places : List Nat) :
    rank n (p :: places) < rank n ((p + 1) :: places) := by
  have hpos : 0 < (2 * n + 2) ^ (n - places.length) := Nat.pow_pos (by omega)
  simp only [rank, Nat.add_mul, Nat.one_mul]
  omega

/-- Taking a call is progress. -/
theorem rank_push (n : Nat) (places : List Nat) : rank n places < rank n (0 :: places) := by
  have hpos : 0 < (2 * n + 2) ^ (n - places.length) := Nat.pow_pos (by omega)
  simp only [rank]
  omega

/-- Going back, and then on, is progress. -/
theorem rank_pop {p q : Nat} (hp : p ≤ 2 * n) (hplaces : places.length < n) :
    rank n (p :: q :: places) < rank n ((q + 1) :: places) := by
  have hpow : (2 * n + 2) ^ (n - places.length) =
      (2 * n + 2) * (2 * n + 2) ^ (n - (places.length + 1)) := by
    rw [← Nat.pow_succ']
    congr 1
    omega
  have hlt : (p + 1) * (2 * n + 2) ^ (n - (places.length + 1)) <
      (2 * n + 2) ^ (n - places.length) := by
    rw [hpow]
    exact Nat.mul_lt_mul_of_pos_right (by omega) (Nat.pow_pos (by omega))
  simp only [rank, List.length_cons, Nat.add_mul, Nat.one_mul] at hlt ⊢
  omega

/-- There is an end to progress. -/
theorem rank_lt (hlength : places.length ≤ n + 1) (hplaces : ∀ p ∈ places, p ≤ 2 * n) :
    rank n places + (2 * n + 2) ^ (n + 1 - places.length) ≤ (2 * n + 2) ^ (n + 1) := by
  induction places with
  | nil => simp [rank]
  | cons p places ih =>
    rw [List.length_cons] at hlength
    have hrest := ih (by omega) fun q hq => hplaces q (List.mem_cons_of_mem _ hq)
    have hpow : (2 * n + 2) ^ (n + 1 - places.length) =
        (2 * n + 2) * (2 * n + 2) ^ (n - places.length) := by
      rw [← Nat.pow_succ']
      congr 1
      omega
    have hle : (p + 1 + 1) * (2 * n + 2) ^ (n - places.length) ≤
        (2 * n + 2) ^ (n + 1 - places.length) := by
      rw [hpow]
      exact Nat.mul_le_mul_right _ (by have := hplaces p List.mem_cons_self; omega)
    rw [Nat.add_mul, Nat.one_mul] at hle
    simp only [rank, List.length_cons,
      show n + 1 - (places.length + 1) = n - places.length by omega]
    omega

/-- The search is in order, and this far. -/
def InOrder (model : Model σ ι ο) (entries : List (Entry ι ο)) (n r : Nat) (c : Search σ) : Prop :=
  ∃ opens places xs rest, Inv model entries n opens places xs rest c ∧
    rank n (xs.length :: places) = r

/-- An iteration at a call: it is taken, or the search goes on in the list. -/
theorem Inv.atCall (h : WellFormed entries n) (hequal : model.EqualOk)
    (hinv : Inv model entries n opens places xs (a :: ys) c)
    (hm : mate (nodesOf entries) a = some m) :
    ∃ c' r, c.atCall model (nodesOf entries) entries.length a m = some c' ∧
      InOrder model entries n r c' ∧
      rank n (xs.length :: places) < r := by
  obtain ⟨id, v, w, ha, hret⟩ := h.mate_eq_some.1 hm
  have hnode := h.node_call ha hret
  have hnode' := WellFormed.node_return hret
  have hid := h.idOf_call ha
  have hmem : a ∈ left entries c.linearized := by
    rw [hinv.split]
    simp
  have hlt : id < n := hid ▸ h.idOf_lt (h.length ▸ (mem_left.1 hmem).1)
  obtain ⟨b, hset⟩ := Bitset.isSome_set (hinv.stack.isSome_get hlt)
  have hadvance : Fails model (nodesOf entries) (left entries c.linearized) c.state a →
      InOrder model entries n (rank n ((xs.length + 1) :: places))
        { c with entry := c.links.next a } :=
    fun hfails => ⟨_, _, _, _, hinv.advance h hfails, by rw [List.length_append]; rfl⟩
  have hcall : (mate (nodesOf entries) a).isSome := by
    rw [hm]
    rfl
  simp only [Search.atCall, nodesOf, hnode, hnode', Value.input?, Value.output?,
    Option.bind_eq_bind, Option.bind_some, hset, Option.pure_def]
  have hrun : runCall model (nodesOf entries) c.state a =
      if (model.step c.state v w).1 = true then some (model.step c.state v w).2 else none := by
    simp only [runCall, nodesOf, hnode, hnode', Value.input?, Value.output?, Option.bind_eq_bind,
      Option.bind_some]
  rw [← hid] at hset
  split
  · next hok =>
    rw [if_pos hok] at hrun
    split
    · next hhit =>
      refine ⟨_, _, rfl, hadvance ⟨hcall, fun s' hs' => ?_⟩, rank_advance ..⟩
      rw [hrun] at hs'
      cases hs'
      exact hinv.fails_of_cacheContains h hequal hm hset hhit
    · have hlinked := hinv.stack.linked h
      have hnodup : (entries.length :: left entries c.linearized).Nodup := nodup_left
      have hpaired := hinv.stack.paired h
      rw [hinv.split] at hlinked hnodup hpaired
      obtain ⟨us, vs, rfl, -⟩ := hpaired.exists_split hm
      obtain ⟨links, hlift, -, hunlift⟩ := lift_linked hlinked hnodup
      rw [hlift]
      exact ⟨_, _, rfl, ⟨_, _, _, _, hinv.take h hm hset hrun hlift hunlift, rfl⟩, rank_push ..⟩
  · next hok =>
    refine ⟨_, _, rfl, hadvance ⟨hcall, fun s' hs' => ?_⟩, rank_advance ..⟩
    rw [hrun, if_neg hok] at hs'
    cases hs'

/-- At a return nothing that is left can be completed. -/
theorem Inv.not_completes (hinv : Inv model entries n opens places xs (a :: ys) c)
    (ha : mate (nodesOf entries) a = none) :
    ¬ Completes model (nodesOf entries) (left entries c.linearized) c.state := by
  have hnodup : (left entries c.linearized).Nodup := (List.nodup_cons.1 nodup_left).2
  have hfails := hinv.fails
  rw [hinv.split] at hnodup hfails ⊢
  exact Porcupine.not_completes hnodup hfails ha

/-- The calls on the stack are a partial linearization. -/
theorem Inv.computeLongest (h : WellFormed entries n)
    (hinv : Inv model entries n opens places xs rest c)
    (computePartial : Bool) :
    ∃ longest, c.computeLongest (nodesOf entries) computePartial = some longest ∧
      LongestOK model entries n longest := by
  cases computePartial with
  | false => exact ⟨_, rfl, hinv.longest⟩
  | true =>
  have hseq := hinv.stack.seq_eq
  have hlt : ∀ id ∈ seq (nodesOf entries) c.calls, id < c.longest.length := by
    intro id hid
    rw [hseq, List.map_map] at hid
    obtain ⟨v, hv, rfl⟩ := List.mem_map.1 hid
    rw [hinv.longest.length]
    exact h.idOf_lt (h.length ▸ hinv.stack.entry_lt v (List.mem_reverse.1 hv))
  obtain ⟨longest, hupdate, hlength, hspec⟩ := foldlM_updateEntry (fun _ hid => hid) hlt
  refine ⟨longest, hupdate, hlength.trans hinv.longest.length, fun id l hl => ?_⟩
  rcases hspec id l hl with hold | ⟨rfl, hid⟩
  · exact hinv.longest.isPartial id l hold
  · exact ⟨hid, _, _, _, hinv.stack.takes h, hseq⟩

/-- An iteration at a return: the search goes back to the last call that was taken. -/
theorem Inv.atReturn (h : WellFormed entries n)
    (hinv : Inv model entries n opens places xs (a :: ys) c)
    (ha : mate (nodesOf entries) a = none) (computePartial : Bool) {callsTop : CallsEntry σ}
    {calls : List (CallsEntry σ)} (hcalls : c.calls = callsTop :: calls) :
    ∃ c' r, c.atReturn (nodesOf entries) computePartial callsTop calls = some c' ∧
      InOrder model entries n r c' ∧ rank n (xs.length :: places) < r := by
  have hdead := hinv.not_completes ha
  obtain ⟨longest, hlongest, hlongestOK⟩ := hinv.computeLongest h computePartial
  have hlength := hinv.stack.length_eq h
  have hxs : xs.length ≤ 2 * n := by
    rw [hinv.split, List.length_append] at hlength
    omega
  have hstack := hinv.stack
  rw [hcalls] at hstack hlength
  obtain ⟨links, b, opens₀, places₀, xs₀, ys₀, m, rfl, rfl, hstack₀, hleft, hfails, hm, hrun, hset,
      hunlift⟩ :=
    hstack.call_inv
  obtain ⟨id, v, w, hcall, hret⟩ := h.mate_eq_some.1 hm
  have hnode := h.node_call hcall hret
  have hid := h.idOf_call hcall
  have hclear := Bitset.clear_set hset (mem_left.1 (by rw [hleft]; simp)).2
  rw [hid] at hclear
  have hplaces : places₀.length < n := by
    rw [hstack₀.length_places]
    rw [List.length_cons] at hlength
    omega
  have hdead' : Fails model (nodesOf entries) (left entries b) callsTop.state callsTop.entry := by
    refine ⟨by rw [hm]; rfl, fun s' hs' => ?_⟩
    rw [hrun] at hs'
    cases hs'
    rwa [← left_set h hm hset]
  have hprevious : Inv model entries n opens₀ places₀ xs₀ (callsTop.entry :: ys₀)
      { c with
        longest, state := callsTop.state, linearized := b, calls, links
        entry := some callsTop.entry } := by
    refine ⟨hstack₀, hleft, rfl, hfails, fun hash e he => ?_, hlongestOK⟩
    rcases hinv.cache hash e he with hdead₁ | hopen
    · exact .inl hdead₁
    · rcases List.mem_cons.1 hopen with heq | hopen
      · obtain ⟨hbits, hstate⟩ := Prod.mk.inj heq
        rw [hbits, hstate]
        exact .inl hdead
      · exact .inr hopen
  refine ⟨_, _, ?_, ⟨_, _, _, _, hprevious.advance h hdead', rfl⟩, ?_⟩
  · simp only [Search.atReturn, nodesOf, hlongest, hnode, hclear, hunlift, Option.bind_eq_bind,
      Option.bind_some, Option.pure_def]
  · rw [List.length_append]
    exact rank_pop hxs hplaces

/-! ## The loop ends with the right answer -/

/-- A result of `checkSingle` is right, if it was not killed. -/
structure ResultOK (model : Model σ ι ο) (entries : List (Entry ι ο)) (n : Nat) (ok : Bool)
    (longest : Longest) : Prop where
  iff : ok = true ↔ Completes model (nodesOf entries) (List.range entries.length) model.init
  longest : LongestOK model entries n longest

/-- All calls were taken. -/
theorem Inv.completes (h : WellFormed entries n)
    (hinv : Inv model entries n opens places xs rest c) (hnil : left entries c.linearized = []) :
    ResultOK model entries n true
      (c.longest.map fun _ => some (seq (nodesOf entries) c.calls)) := by
  have htakes := hinv.stack.takes h
  have hseq := hinv.stack.seq_eq
  rw [hnil] at htakes
  refine ⟨iff_of_true rfl ⟨_, _, htakes⟩, ?_, fun id l hl => ?_⟩
  · rw [List.length_map]
    exact hinv.longest.length
  · rw [List.getElem?_map] at hl
    obtain ⟨old, hold, heq⟩ := Option.map_eq_some_iff.1 hl
    cases heq
    refine ⟨?_, _, _, _, htakes, hseq⟩
    -- every operation has a call, and all calls were taken
    obtain ⟨a, v, ha⟩ :=
      h.exists_call id (hinv.longest.length ▸ (List.getElem?_eq_some_iff.1 hold).1)
    obtain ⟨m, w, -, hm⟩ := h.returned a id v ha
    have hmate := h.mate_eq_some.2 ⟨id, v, w, ha, hm⟩
    have hlt := h.mate_lt hmate
    have hpaired := h.paired
    rw [← h.length] at hpaired hlt
    have hmem : a ∈ callsOf (mate (nodesOf entries)) (List.range entries.length) :=
      mem_callsOf.2 ⟨List.mem_range.2 (hlt.1.trans hlt.2), by rw [hmate]; rfl⟩
    rw [hseq, ← h.idOf_call ha]
    exact List.mem_map_of_mem (((takes_iff hpaired).1 ⟨_, htakes⟩).1.mem_iff.2 hmem)

/-- An iteration gets further, or ends the search with the right answer. -/
theorem InOrder.iterate (h : WellFormed entries n) (hequal : model.EqualOk)
    (computePartial : Bool) {r : Nat} (hc : InOrder model entries n r c) :
    (∃ c' r', c.iterate model (nodesOf entries) computePartial entries.length false =
      some (.running c') ∧
      InOrder model entries n r' c' ∧ r < r') ∨
    ∃ ok longest, c.iterate model (nodesOf entries) computePartial entries.length false =
      some (.returned ok longest) ∧ ResultOK model entries n ok longest := by
  obtain ⟨opens, places, xs, rest, hinv, rfl⟩ := hc
  have hnext := (hinv.stack.linked h).next_eq
  cases rest with
  | nil =>
    -- the last node would be a call, and it would have a return
    have hnil : left entries c.linearized = [] := by
      refine List.eq_nil_iff_forall_not_mem.2 fun a ha => ?_
      have hpaired := hinv.stack.paired h
      have hcall : ∀ b ∈ left entries c.linearized, (mate (nodesOf entries) b).isSome :=
        fun b hb =>
        (hinv.fails b (by rw [hinv.split, List.append_nil] at hb; exact hb)).1
      obtain ⟨m, hm⟩ := Option.isSome_iff_exists.1 (hcall a ha)
      have hret := hcall m ((hpaired.later a m ha hm).subset (by simp))
      rw [hpaired.ret a m ha hm] at hret
      cases hret
    refine .inr ⟨_, _, ?_, hinv.completes h hnil⟩
    rw [Search.iterate, if_pos (by rw [hnext, hnil]; rfl)]
  | cons a ys =>
    have hsome : ¬ c.links.next entries.length = none := by
      rw [hnext, hinv.split]
      cases xs <;> exact Option.some_ne_none _
    have hentry : c.entry = some a := hinv.entry
    have hlt : a < entries.length := (mem_left.1 (by rw [hinv.split]; simp)).1
    simp only [Search.iterate, if_neg hsome, Bool.false_eq_true, if_false, hentry,
      Option.bind_eq_bind, Option.bind_some]
    obtain ⟨id, -, ⟨v, hv⟩ | ⟨w, hw⟩⟩ := callAt_or_returnAt hlt
    · obtain ⟨m, w, -, hm⟩ := h.returned a id v hv
      obtain ⟨c', r', hc', hinv', hr'⟩ :=
        hinv.atCall h hequal (h.mate_eq_some.2 ⟨id, v, w, hv, hm⟩)
      refine .inl ⟨c', r', ?_, hinv', hr'⟩
      simp only [nodesOf, h.node_call hv hm, Option.bind_some]
      rw [hc']
      rfl
    · have hmate := WellFormed.mate_return hw
      simp only [nodesOf, WellFormed.node_return hw, Option.bind_some]
      cases hcalls : c.calls with
      | nil =>
        refine .inr ⟨false, c.longest, rfl, iff_of_false Bool.false_ne_true ?_, hinv.longest⟩
        have hdead := hinv.not_completes hmate
        have hstack := hinv.stack
        rw [hcalls] at hstack
        obtain ⟨hbits, hstate⟩ := hstack.nil_inv
        rwa [hbits, hstate, left_newBitset h] at hdead
      | cons callsTop calls =>
        obtain ⟨c', r', hc', hinv', hr'⟩ := hinv.atReturn h hmate computePartial hcalls
        refine .inl ⟨c', r', ?_, hinv', hr'⟩
        simp only
        rw [hc']
        rfl

/-- When it is killed, the search ends. -/
theorem InOrder.iterate_killed (h : WellFormed entries n) (computePartial : Bool) {r : Nat}
    (hc : InOrder model entries n r c) :
    ∃ ok longest, c.iterate model (nodesOf entries) computePartial entries.length true =
      some (.returned ok longest) ∧ LongestOK model entries n longest := by
  obtain ⟨opens, places, xs, rest, hinv, rfl⟩ := hc
  rw [Search.iterate]
  split
  · next hnone =>
    rw [(hinv.stack.linked h).next_eq, List.head?_eq_none_iff] at hnone
    exact ⟨_, _, rfl, (hinv.completes h hnone).longest⟩
  · exact ⟨_, _, rfl, hinv.longest⟩

/-- A search that has not ended is below the bound. -/
theorem InOrder.lt (h : WellFormed entries n) {r : Nat} (hc : InOrder model entries n r c) :
    r < (2 * n + 2) ^ (n + 1) := by
  obtain ⟨opens, places, xs, rest, hinv, rfl⟩ := hc
  have hlength := hinv.stack.length_eq h
  have hplaces := hinv.stack.length_places
  have hle : rank n (xs.length :: places) + (2 * n + 2) ^ (n + 1 - (xs.length :: places).length) ≤
      (2 * n + 2) ^ (n + 1) := rank_lt (by rw [List.length_cons]; omega) ?_
  · have hpos : 0 < (2 * n + 2) ^ (n + 1 - (xs.length :: places).length) := Nat.pow_pos (by omega)
    omega
  · intro p hp
    rcases List.mem_cons.1 hp with rfl | hp
    · rw [hinv.split, List.length_append] at hlength
      omega
    · exact hinv.stack.place_le h p hp

/-- The search starts in order. -/
theorem inOrder_start (h : WellFormed entries n) :
    ∃ r, InOrder model entries n r (Search.start model entries) := by
  have hn : length (makeLinkedEntries entries).links entries.length
      (makeLinkedEntries entries).root / 2 = n := by
    rw [start_length, h.length]
    omega
  have hroot : (makeLinkedEntries entries).root = (List.range entries.length).head? := by
    rw [makeLinkedEntries, linkEntries_root, List.range_eq_range']
  have hstart : Search.start model entries = ⟨(Search.start model entries).links,
      (List.range entries.length).head?, newBitset n, ∅, [], List.replicate n none,
        model.init⟩ := by
    rw [hroot] at hn
    simp only [Search.start, hroot, hn]
  refine ⟨_, [], [], [], left entries (newBitset n), ?_, rfl⟩
  rw [hstart]
  refine ⟨.root, rfl, ?_, fun x hx => absurd hx List.not_mem_nil, ?_, List.length_replicate,
    fun id l hl => ?_⟩
  · rw [left_newBitset h]
  · intro hash e he
    rw [Cache.bucket_empty] at he
    cases he
  · rw [List.getElem?_replicate] at hl
    split at hl <;> cases hl

/-- The search ends before the bound is reached, with the right result. -/
theorem InOrder.loop (h : WellFormed entries n) (hequal : model.EqualOk) (computePartial : Bool)
    {r fuel : Nat} (hc : InOrder model entries n r c) (hfuel : (2 * n + 2) ^ (n + 1) ≤ fuel + r) :
    ∃ ok longest, c.loop model (nodesOf entries) computePartial entries.length fuel =
      some (ok, longest) ∧
      ResultOK model entries n ok longest := by
  induction fuel generalizing c r with
  | zero =>
    have hlt := hc.lt h
    omega
  | succ fuel ih =>
    rw [Search.loop]
    rcases hc.iterate h hequal computePartial with
      ⟨c', r', hiter, hc', hlt⟩ | ⟨ok, longest, hiter, hok⟩
    · rw [hiter]
      exact ih hc' (by omega)
    · rw [hiter]
      exact ⟨ok, longest, rfl, hok⟩

/-- `checkSingle` returns, and finds out whether all calls can be taken. -/
theorem exists_checkSingle (h : WellFormed entries n) (hequal : model.EqualOk)
    (computePartial : Bool) {fuel : Nat} (hfuel : (2 * n + 2) ^ (n + 1) ≤ fuel) :
    ∃ ok longest, checkSingle model entries computePartial fuel = some (ok, longest) ∧
      ResultOK model entries n ok longest := by
  obtain ⟨r, hstart⟩ : ∃ r, InOrder model entries n r (Search.start model entries) :=
    inOrder_start h
  exact hstart.loop h hequal computePartial (by omega)

end

end DistLabs.Porcupine
