/-
  Switchboard.Proofs.World.Provenance — whose object does a `get` return?

  Take any number of registries, and let every reference be passed to any of them. An object is
  supplied by a registration for a bundle if it is what the registration was published with or
  what its factory made for the bundle (`Supplied`). A ledger knows a use by its bundle and the
  number of its reference, and each registry numbers its references from one. So what is cached
  for a pair was supplied for the bundle by the target of some reference of that number that the
  bundle used here (`SuppliedVia`), and so is what a `get` returns; it is the reference's own
  registration if the bundle used no reference of that number to another (`get_supplied`).

  Where it did, a `get` returns the object of another registry's service
  (`get_returns_foreign`).
-/

import Switchboard.Proofs.World.Validity

namespace Switchboard

namespace World

variable {α : Type} {w v : World α} {g g' : Registry α} {top : Option (Frame α)} {out : Outcome α} {f : Frame α}
  {os os' : List (Occurrence α)} {r : Nat} {b : BundleId} {ref : Reference} {h : Handle} {id : Nat} {o : α}

/-! ## Who supplied an object -/

def Supplied (w : World α) (os : List (Occurrence α)) (h : Handle) (b : BundleId) (o : α) : Prop :=
  (∃ x, w.registration? h = some x ∧ x.source = .object o) ∨ .answered (.supply h b) (.supplied (some o)) ∈ os

/-- The target of a reference of this number supplied it, and `b` used that reference at `r`. -/
def SuppliedVia (w : World α) (os : List (Occurrence α)) (r : Nat) (b : BundleId) (id : Nat) (o : α) : Prop :=
  ∃ q : Reference, q.id = id ∧ .acquired r b q ∈ os ∧ w.Supplied os q.target b o

theorem Supplied.step (hsup : (v.onto top).Supplied os h b o) (hs : Step v top out) :
    out.1.Supplied (os ++ out.2) h b o := by
  rcases hsup with ⟨x, hx, hsource⟩ | hmade
  · obtain ⟨y, hy, hyx⟩ := origin_step hs hx
    have hsame : y.source = x.source := (congrArg Registration.source hyx :)
    exact Or.inl ⟨y, hy, hsame.trans hsource⟩
  · exact Or.inr (List.mem_append_left _ hmade)

theorem SuppliedVia.step (hvia : (v.onto top).SuppliedVia os r b id o) (hs : Step v top out) :
    out.1.SuppliedVia (os ++ out.2) r b id o := by
  obtain ⟨q, hid, hacquired, hsup⟩ := hvia
  exact ⟨q, hid, List.mem_append_left _ hacquired, hsup.step hs⟩

/-! ## What is cached and what is in hand -/

structure Stocked (w : World α) (os : List (Occurrence α)) (r : Nat) (l : Ledger α) : Prop where
  sound : l.Sound
  cached : ∀ b, ∀ u ∈ l.usages b, ∀ o, u.object = some o → w.SuppliedVia os r b u.reference.id o

def Backed (w : World α) (os : List (Occurrence α)) : Frame α → Prop
  | .resolving r h b ref => h = ref.target ∧ .acquired r b ref ∈ os
  | .settling r _ b ref _ (some o) => w.SuppliedVia os r b ref.id o
  | _ => True

structure Provided (w : World α) (os : List (Occurrence α)) : Prop where
  stocked : ∀ (r : Nat) (g : Registry α), w.registries[r]? = some g → w.Stocked os r g.ledger
  backed : ∀ f ∈ w.stack, w.Backed os f

theorem backed_of_not_getting (hf : f.getting? = none) : w.Backed os f := by
  cases f <;> trivial

theorem Backed.step (hf : (v.onto top).Backed os f) (hs : Step v top out) : out.1.Backed (os ++ out.2) f := by
  cases f with
  | resolving r h b ref => exact ⟨hf.1, List.mem_append_left _ hf.2⟩
  | settling r h b ref fresh o =>
    cases o with
    | none => trivial
    | some o => exact SuppliedVia.step hf hs
  | _ => trivial

theorem Stocked.step {l : Ledger α} (hl : (v.onto top).Stocked os r l) (hs : Step v top out) :
    out.1.Stocked (os ++ out.2) r l :=
  ⟨hl.sound, fun b u hu o ho => (hl.cached b u hu o ho).step hs⟩

/-- Editing an entry keeps a ledger stocked, if the new one caches what was supplied. -/
theorem Stocked.edit {l l' : Ledger α} {x y : Option (Usage α)} (hl : w.Stocked os r l) (hsound : l'.Sound)
    (he : l.Edit l' b id x y) (hy : ∀ u ∈ y, ∀ o, u.object = some o → w.SuppliedVia os r b id o) :
    w.Stocked os r l' := by
  refine ⟨hsound, fun c u hu o ho => ?_⟩
  rcases he.mem hu with hu | ⟨rfl, hu⟩
  · exact hl.cached c u hu o ho
  · rw [he.after u hu]
    exact hy u hu o ho

theorem Stocked.object {l : Ledger α} {u : Usage α} (hl : w.Stocked os r l) (hu : l.usage? b id = some u)
    (ho : u.object = some o) : w.SuppliedVia os r b id o := by
  obtain ⟨hmem, rfl⟩ := Ledger.mem_of_usage? hu
  exact hl.cached b u hmem o ho

/-- The final section of a `get` gives what it has at hand or what is cached, and caches no more. -/
theorem Stocked.settles {l : Ledger α} {valid fresh : Bool} {x : Option α} {e : Settlement α} (hl : w.Stocked os r l)
    (hx : ∀ o, x = some o → w.SuppliedVia os r b id o) (hs : Settles l b id valid fresh x e) :
    w.Stocked os r e.ledger ∧ ∀ o, e.object = some o → w.SuppliedVia os r b id o := by
  cases hs with
  | cached _ _ ho => exact ⟨hl, fun o heq => hx o (ho.trans heq)⟩
  | missing => exact ⟨hl, fun o heq => by cases heq⟩
  | existing _ _ _ hu hc => exact ⟨hl, fun o heq => hl.object hu (hc.trans heq)⟩
  | kept _ _ ho _ hsound he =>
    refine ⟨hl.edit hsound he ?_, fun o heq => hx o (ho.trans heq)⟩
    rintro u ⟨⟩ o heq
    exact hx o (ho.trans heq)
  | lost => exact ⟨hl, fun o heq => by cases heq⟩
  | spent _ _ _ hsound he =>
    refine ⟨hl.edit hsound he ?_, fun o heq => by cases heq⟩
    rintro u ⟨⟩ o heq
    exact hl.object he.usage?_before heq
  | dropped _ _ hsound he =>
    refine ⟨hl.edit hsound he ?_, fun o heq => by cases heq⟩
    rintro u ⟨⟩

/-! ## Every step -/

/-- A ledger is as it was or stocked still, and what is new on the stack has at hand what was
    supplied. -/
theorem Provided.next (hp : Provided (v.onto top) os) (hs : Step v top out)
    (hreg : ∀ (q : Nat) (k : Registry α), out.1.registries[q]? = some k →
      (∃ k', v.registries[q]? = some k' ∧ k.ledger = k'.ledger) ∨ out.1.Stocked (os ++ out.2) q k.ledger)
    {p : List (Frame α)} (hstack : out.1.stack = p ++ v.stack) (hfs : ∀ k ∈ p, out.1.Backed (os ++ out.2) k) :
    Provided out.1 (os ++ out.2) := by
  refine ⟨fun q k hk => ?_, fun k hk => ?_⟩
  · rcases hreg q k hk with ⟨k', hk', hledger⟩ | hl
    · rw [hledger]
      exact (hp.stocked q k' hk').step hs
    · exact hl
  · rw [hstack] at hk
    rcases List.mem_append.mp hk with hk | hk
    · exact hfs k hk
    · exact (hp.backed k (List.mem_append_right _ hk)).step hs

/-- A step that changes one registry. -/
theorem Provided.set (hp : Provided (v.onto top) os) (hs : Step v top out)
    (hset : out.1.registries = (v.setRegistry r g).registries) (hl : out.1.Stocked (os ++ out.2) r g.ledger)
    {p : List (Frame α)} (hstack : out.1.stack = p ++ v.stack) (hfs : ∀ k ∈ p, out.1.Backed (os ++ out.2) k) :
    Provided out.1 (os ++ out.2) := by
  refine hp.next hs (fun q k hk => ?_) hstack hfs
  rw [hset] at hk
  rcases registry_setRegistry hk with ⟨rfl, rfl⟩ | ⟨-, hk⟩
  · exact Or.inr hl
  · exact Or.inl ⟨k, hk, rfl⟩

theorem backed_of_option {p : Option (Frame α)} (hp : ∀ k ∈ p, k.getting? = none) : ∀ k ∈ p.toList, w.Backed os k :=
  fun k hk => backed_of_not_getting (hp k (Option.mem_toList.mp hk))

theorem backed_of_loop {p : Option (Frame α)} (hp : ∀ k ∈ p, k.isLoop) : ∀ k ∈ p.toList, w.Backed os k :=
  backed_of_option fun k hk => Frame.getting?_of_aside (Frame.aside_of_loop (hp k hk))

theorem backed_singleton (hf : w.Backed os f) : ∀ k ∈ [f], w.Backed os k := by
  intro k hk
  rw [List.mem_singleton.mp hk]
  exact hf

/-- A `get` has counted its use: it goes on with what is cached, with what the registration was
    published with, or by asking its factory. -/
theorem backed_fetch {l : Ledger α} (hl : w.Stocked os r l) (hacquired : .acquired r b ref ∈ os) {x : Registration α}
    (hx : w.registration? ref.target = some x) : w.Backed os (fetch r b ref (l.acquire b ref).1 x.source) := by
  unfold fetch
  split
  · rename_i c hc
    obtain ⟨u, hu, ho⟩ := Option.bind_eq_some_iff.mp (show (l.usage? b ref.id).bind (·.object) = some c from hc)
    exact hl.object hu ho
  · rename_i o _ hsource
    exact ⟨ref, rfl, hacquired, Or.inl ⟨x, hx, hsource⟩⟩
  · exact ⟨rfl, hacquired⟩

theorem Stocked.acquire {l : Ledger α} (hl : w.Stocked os r l) (b : BundleId) (ref : Reference) :
    w.Stocked os r (l.acquire b ref).2 := by
  refine hl.edit (hl.sound.acquire b ref) (Ledger.edit_acquire hl.sound b ref) ?_
  rintro y ⟨⟩ o ho
  cases hu : l.usage? b ref.id with
  | none =>
    rw [hu] at ho
    cases ho
  | some u =>
    rw [hu] at ho
    exact hl.object hu ho

theorem Stocked.drain {l : Ledger α} (hl : w.Stocked os r l) (h : Handle) : w.Stocked os r (l.drain h).ledger := by
  refine ⟨Ledger.sound_drain hl.sound h, fun b u hu => ?_⟩
  rw [Ledger.usages_drain hl.sound] at hu
  exact hl.cached b u (List.mem_filter.mp hu).1

theorem provided_step (hp : Provided (v.onto top) os) (hs : Step v top out) : Provided out.1 (os ++ out.2) := by
  have hstep := hs
  cases hs with
  | idle htop hi =>
    obtain ⟨p, hstack, haside⟩ := hi.stack
    refine hp.next hstep (fun q k hk => ?_) hstack (backed_of_option fun k hk => Frame.getting?_of_aside (haside k hk).1)
    obtain ⟨k', hk', hm⟩ := hi.alike.registry_before hk
    exact Or.inl ⟨k', hk', by rw [hm.eq]⟩
  | publish b name source p held hg hf =>
    refine hp.set hstep rfl ((hp.stocked _ _ hg).step hstep) rfl (backed_of_option fun k hk => ?_)
    rw [hf k hk]
    rfl
  | retire htop hf hg =>
    refine hp.set hstep rfl ((hp.stocked _ _ hg).step hstep) (p := _ :: _) rfl (List.forall_mem_cons.mpr ⟨?_, ?_⟩)
    · exact backed_of_not_getting (by split <;> rfl)
    · exact backed_of_loop fun k hk => (hf k hk).1
  | notified =>
    exact hp.next hstep (fun q k hk => Or.inl ⟨k, hk, rfl⟩) (p := [_]) rfl (backed_singleton trivial)
  | @drain r g h os' f hg hf =>
    have hl := ((hp.stocked _ _ hg).step hstep).drain h
    exact hp.set hstep rfl hl (p := [_]) rfl (backed_singleton (backed_of_not_getting (by rw [hf]; rfl)))
  | @acquire r g b ref x os' f hg hknown hx hf hos =>
    have hl := (hp.stocked _ _ hg).step hstep
    have hfetch := backed_fetch hl (List.mem_append_right _ (mem_of_gist hos)) (behind?_eq_some.mp hx).2
    rw [← hf] at hfetch
    exact hp.set hstep rfl (hl.acquire b ref) (p := [_]) rfl (backed_singleton hfetch)
  | @supplied r h b ref os' o hos =>
    refine hp.next hstep (fun q k hk => Or.inl ⟨k, hk, rfl⟩) (p := [_]) rfl (backed_singleton ?_)
    cases o with
    | none => trivial
    | some o =>
      -- The factory has made it just now.
      obtain ⟨htarget, hacquired⟩ := hp.backed _ (List.mem_cons_self ..)
      refine ⟨ref, rfl, List.mem_append_left _ hacquired, Or.inr (List.mem_append_right _ ?_)⟩
      rw [← htarget]
      exact mem_of_gist hos
  | @settle r g h b ref fresh o os' e f hg he hf =>
    have hl := hp.stocked _ _ hg
    have hat : (v.onto _).Backed os (.settling r h b ref fresh o) := hp.backed _ (List.mem_cons_self ..)
    have hkept := hl.settles (x := o) (fun y hy => by subst hy; exact hat) (settles_of_eq hl.sound he)
    exact hp.set hstep rfl (hkept.1.step hstep) (p := [_]) rfl
      (backed_singleton (backed_of_not_getting (by rw [hf]; rfl)))
  | decrement htop hf hg hknown hrel =>
    have hl := (hp.stocked _ _ hg).step hstep
    obtain ⟨u, -, -, -, hsound, he⟩ := Ledger.release_decremented hl.sound hrel
    refine hp.set hstep rfl (hl.edit hsound he ?_) rfl (backed_of_loop fun k hk => (hf k hk).1)
    rintro y ⟨⟩ o ho
    exact hl.object he.usage?_before ho
  | flush k htop hf hg hknown hrel hk =>
    have hl := (hp.stocked _ _ hg).step hstep
    obtain ⟨u, -, -, hsound, he⟩ := Ledger.release_flushed hl.sound hrel
    refine hp.set hstep rfl (hl.edit hsound he ?_) (p := k.toList ++ _) (List.append_assoc ..).symm
      (List.forall_mem_append.mpr ⟨?_, ?_⟩)
    · rintro y ⟨⟩
    · refine backed_of_option fun q hq => ?_
      rw [Option.mem_def, hk, Option.map_eq_some_iff] at hq
      obtain ⟨o, -, rfl⟩ := hq
      rfl
    · exact backed_of_loop fun k hk => (hf k hk).1
  | handed =>
    exact hp.next hstep (fun q k hk => Or.inl ⟨k, hk, rfl⟩) (p := [_]) rfl (backed_singleton trivial)

theorem provided_start (setups : List (Config × Bool)) : Provided (start setups : World α) [] := by
  refine ⟨fun r g hg => ?_, fun f hf => by cases hf⟩
  obtain ⟨c, hasSink, -, rfl⟩ := registry_start hg
  refine ⟨Ledger.sound_withCapacity .., fun b u hu => ?_⟩
  rw [Registry.ofConfig, Ledger.usages_withCapacity] at hu
  cases hu

theorem provided_play {m : Move α} (hp : Provided w os) (hplay : w.play m = some out) :
    Provided out.1 (os ++ out.2) := by
  obtain ⟨v, top, rfl, -, hs⟩ := play_step hplay
  exact provided_step hp hs

/-- All that a reachable world has cached was supplied. -/
theorem provided_run {setups : List (Config × Bool)} {ms : List (Move α)} (hrun : (start setups).run ms = some out) :
    Provided out.1 out.2 :=
  run_induction (P := Provided) (fun _ _ _ _ hp hplay => provided_play hp hplay) ms _ [] out (provided_start setups) hrun

/-! ## A whole `get` -/

/-- Where a `get` stands, and that what it decided to give was supplied. -/
inductive Getting (w : World α) (os : List (Occurrence α)) (r : Nat) (b : BundleId) (ref : Reference) : Frame α → Prop
  | resolving {h : Handle} : Getting w os r b ref (.resolving r h b ref)
  | settling {h : Handle} {fresh : Bool} {o : Option α} : Getting w os r b ref (.settling r h b ref fresh o)
  | decided {h : Handle} {due : List (BundleId × α)} {x : Option α}
      (hx : ∀ o, x = some o → w.SuppliedVia os r b ref.id o) : Getting w os r b ref (.releasing r h due (.got b ref x))

theorem Getting.step (hf : Getting (v.onto top) os r b ref f) (hs : Step v top out) :
    Getting out.1 (os ++ out.2) r b ref f := by
  cases hf with
  | resolving => exact .resolving
  | settling => exact .settling
  | decided hx => exact .decided fun o ho => (hx o ho).step hs

theorem getting_fetch (r : Nat) (b : BundleId) (ref : Reference) (cached : Option α) (source : Source α) :
    Getting w os r b ref (fetch r b ref cached source) := by
  unfold fetch
  split
  · exact .settling
  · exact .settling
  · exact .resolving

theorem getting_call (hplay : w.play (.call r (.get b ref)) = some out) (hmore : w.stack.length < out.1.stack.length) :
    ∃ f, out.1.stack = f :: w.stack ∧ Getting out.1 (os ++ out.2) r b ref f := by
  obtain ⟨-, -, k, -, rfl⟩ := calls_of_play hplay
  cases hx : w.behind? ref with
  | none =>
    rw [call, get_of_invalid w r k b hx, after, stack_finish] at hmore
    exact absurd hmore (Nat.lt_irrefl _)
  | some x =>
    rw [call, get_of_valid w r k b hx]
    exact ⟨_, rfl, getting_fetch ..⟩

/-- A `get` that is innermost goes on, or is over and returns what was supplied. -/
theorem Getting.goesOn (hp : Provided (v.onto (some f)) os) (hf : Getting (v.onto (some f)) os r b ref f)
    (hgo : GoesOn v f out) :
    (∃ f', out.1.stack = f' :: v.stack ∧ Getting out.1 (os ++ out.2) r b ref f') ∨
      ∃ h x, out = v.conclude r h (.got b ref x) ∧ ∀ o, x = some o → out.1.SuppliedVia (os ++ out.2) r b ref.id o := by
  cases hf with
  | resolving =>
    obtain ⟨x, hx⟩ := goesOn_resolving hgo
    exact Or.inl ⟨_, hx, .settling⟩
  | @settling h fresh x =>
    obtain ⟨k, os', e, hk, he, -, hstack, -⟩ := goesOn_settling hgo
    have hl := hp.stocked r k hk
    have hat := hp.backed _ (List.mem_cons_self ..)
    have hkept := hl.settles (x := x) (fun o ho => by subst ho; exact hat) (settles_of_eq hl.sound he)
    exact Or.inl ⟨_, hstack, .decided fun o ho => (hkept.2 o ho).step hgo.step⟩
  | @decided h due x hx =>
    cases due with
    | nil => exact Or.inr ⟨h, x, goesOn_handed hgo, fun o ho => (hx o ho).step hgo.step⟩
    | cons d due => exact Or.inl ⟨_, goesOn_handing hgo, .decided fun o ho => (hx o ho).step hgo.step⟩

/-- What a `get` returns was supplied for the bundle by the target of a reference of the same
    number that the bundle used here; so by the reference's own registration, if the bundle used
    none of that number to another. -/
theorem get_supplied {setups : List (Config × Bool)} {before ms : List (Move α)}
    (hbefore : (start setups).run before = some (w, os)) (hret : Returns w r (.get b ref) ms out (.object (some o))) :
    out.1.SuppliedVia (os ++ out.2) r b ref.id o ∧
      ((∀ q, .acquired r b q ∈ os ++ out.2 → q.id = ref.id → q.target = ref.target) →
        out.1.Supplied (os ++ out.2) ref.target b o) := by
  have hp := provided_run hbefore
  have hreply := hret.reply
  have hvia : out.1.SuppliedVia (os ++ out.2) r b ref.id o := by
    have hmoves := hret.frame_induction
      (Q := fun _ f o => Provided o.1 (os ++ o.2) ∧ Getting o.1 (os ++ o.2) r b ref f) ?hcall ?habove ?hgoes
    case hcall =>
      intro o hplay hmore
      obtain ⟨f, hf, hget⟩ := getting_call hplay hmore
      exact ⟨f, hf, provided_play hp hplay, hget⟩
    case habove =>
      rintro ⟨w', os'⟩ m last p p' f - ⟨hp, hget⟩ hplay -
      rw [← List.append_assoc]
      obtain ⟨v, top, rfl, -, hs⟩ := play_step hplay
      exact ⟨provided_step hp hs, hget.step hs⟩
    case hgoes =>
      rintro ⟨w', os'⟩ m last f hstack ⟨hp, hget⟩ - hgo hmore
      rw [eq_onto (show w'.stack = f :: w.stack from hstack)] at hp hget
      rw [← List.append_assoc]
      rcases hget.goesOn hp hgo with ⟨f', hf', hget'⟩ | ⟨h, x, rfl, -⟩
      · exact ⟨f', hf', provided_step hp hgo.step, hget'⟩
      · exact absurd hmore (by simp [conclude, after, stack_finish])
    rcases hmoves with hplay | ⟨⟨w', os'⟩, f, last, hstack, ⟨hp, hget⟩, hgo, rfl⟩
    · rw [reply_of_back hplay hret.back] at hreply
      cases hreply
    · rw [eq_onto (show w'.stack = f :: w.stack from hstack)] at hp hget
      rcases hget.goesOn hp hgo with ⟨f', hf', -⟩ | ⟨h, x, rfl, hx⟩
      · have hback := hret.back
        rw [show last.1.stack = _ from hf', List.length_cons] at hback
        exact absurd hback (Nat.succ_ne_self _)
      · have hsaid := said_of_conclude (w := { w' with stack := w.stack }) hret.isClientsTurn r h b ref x
        dsimp only at hreply
        rw [hsaid, List.getLast?_append] at hreply
        obtain rfl : x = some o := by simpa using hreply
        rw [← List.append_assoc]
        exact hx o rfl
  refine ⟨hvia, fun hown => ?_⟩
  obtain ⟨q, hid, hacquired, hsup⟩ := hvia
  rw [← hown q hacquired hid]
  exact hsup

/-! ## Two registries -/

def twoServices : List (Move Nat) :=
  [.call 0 (.register 1 "a" (.object 5) none), .call 1 (.register 2 "b" (.object 6) none),
   .call 0 (.findOne "a"), .call 1 (.findOne "b")]

def oneUsed : List (Move Nat) := twoServices ++ [.call 1 (.get 5 ⟨1, 1, 1⟩), .tick, .tick]

def publishedWith (w : World Nat) (h n : Nat) : Bool :=
  (w.registration? h).any fun x => match x.source with
    | .object o => o == n
    | .factory => false

def makes : Occurrence Nat → Bool
  | .answered (.supply ..) _ => true
  | _ => false

theorem get_supplied_twoServices : ∃ w os out,
    (start [(Config.standard, false), (Config.standard, false)]).run twoServices = some (w, os) ∧
    Returns w 1 (.get 5 ⟨1, 1, 1⟩) [.tick, .tick] out (.object (some 6)) ∧ out.1.SuppliedVia (os ++ out.2) 1 5 1 6 ∧
    ((∀ q, .acquired 1 5 q ∈ os ++ out.2 → q.id = 1 → q.target = 1) → out.1.Supplied (os ++ out.2) 1 5 6) := by
  have hany : ((start [(Config.standard, false), (Config.standard, false)]).run twoServices).any (fun out =>
      out.1.returns 1 (.get 5 ⟨1, 1, 1⟩) [.tick, .tick] fun o => o.2.getLast?.any (returnsObject 6)) = true := by
    decide +kernel
  obtain ⟨⟨w, os⟩, hbefore, hw⟩ := (Option.any_eq_true _ _).mp hany
  obtain ⟨out, hlast, hret⟩ := returns_of_all hw
  obtain ⟨o, ho, hobject⟩ := (Option.any_eq_true _ _).mp hlast
  obtain rfl := eq_of_returnsObject hobject
  have hret := hret _ ho
  exact ⟨w, os, out, hbefore, hret, get_supplied hbefore hret⟩

/-- The bundle passes the second registry the first one's reference, which has the same number, and
    is given what it has cached for its own. -/
theorem get_returns_foreign : ∃ w os out,
    (start [(Config.standard, false), (Config.standard, false)]).run oneUsed = some (w, os) ∧
    Returns w 1 (.get 5 ⟨1, 1, 0⟩) [.tick, .tick] out (.object (some 6)) ∧ ¬ out.1.Supplied (os ++ out.2) 0 5 6 := by
  have hany : ((start [(Config.standard, false), (Config.standard, false)]).run oneUsed).any (fun out =>
      out.2.all (fun o => !makes o) && out.1.returns 1 (.get 5 ⟨1, 1, 0⟩) [.tick, .tick] fun o =>
        o.2.getLast?.any (returnsObject 6) && publishedWith o.1 0 5 && o.2.all (fun o => !makes o)) = true := by
    decide +kernel
  obtain ⟨⟨w, os⟩, hbefore, hw⟩ := (Option.any_eq_true _ _).mp hany
  obtain ⟨hnone, hw⟩ := Bool.and_eq_true_iff.mp hw
  obtain ⟨out, hout, hret⟩ := returns_of_all hw
  simp only [Bool.and_eq_true] at hout
  obtain ⟨⟨hlast, hfive⟩, hnone'⟩ := hout
  obtain ⟨o, ho, hobject⟩ := (Option.any_eq_true _ _).mp hlast
  obtain rfl := eq_of_returnsObject hobject
  refine ⟨w, os, out, hbefore, hret _ ho, ?_⟩
  rintro (⟨x, hx, hsource⟩ | hmade)
  · rw [publishedWith, hx, Option.any_some, hsource] at hfive
    cases hfive
  · rcases List.mem_append.mp hmade with hmade | hmade
    · cases List.all_eq_true.mp hnone _ hmade
    · cases List.all_eq_true.mp hnone' _ hmade

end World

end Switchboard
