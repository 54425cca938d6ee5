/-
  Switchboard.Proofs.World.Binding — what taking and giving back one use comes to.

  Where there is one registry, a use of a valid registration (`Offers`) changes nothing but the
  ledger (`Rebooked`), if the factory calls nothing. A `get` counts one more use and gives the
  cached object; the first one of a pair makes the entry and caches the object. An `unget` counts
  one use fewer, and the last one takes the entry out and gives the object back.
-/

import Switchboard.Proofs.World.Ensures

namespace Switchboard

variable {α : Type}

def Occurrence.reply? : Occurrence α → Option (Reply α)
  | returned reply => some reply
  | _ => none

def replies (os : List (Occurrence α)) : List (Reply α) := os.filterMap Occurrence.reply?

theorem replies_append (os os' : List (Occurrence α)) : replies (os ++ os') = replies os ++ replies os' :=
  List.filterMap_append

namespace Ledger

variable {l l' : Ledger α} {b : BundleId} {id : Nat} {u v : Option (Usage α)}

/-- An entry that is edited back leaves the ledger as it was. -/
theorem Edit.same (he : l.Edit l' b id u u) (c : BundleId) : l'.usages c = l.usages c := by
  by_cases hc : c = b
  · obtain ⟨pre, post, hl, hl', -⟩ := he.here
    rw [hc, hl, hl']
  · exact he.others c hc

theorem Edit.of_same {l'' : Ledger α} (hsame : ∀ c, l'.usages c = l.usages c) (he : l'.Edit l'' b id u v) :
    l.Edit l'' b id u v := by
  refine ⟨fun c hc => (he.others c hc).trans (hsame c), ?_, he.before, he.after⟩
  rw [← hsame b]
  exact he.here

theorem Edit.refl (hl : l.Sound) (b : BundleId) (id : Nat) : l.Edit l b id (l.usage? b id) (l.usage? b id) := by
  have hid : ∀ x, l.usage? b id = some x → x.reference.id = id := fun x hx => (mem_of_usage? hx).2
  refine ⟨fun _ _ => rfl, ?_, hid, hid⟩
  cases hu : l.usage? b id with
  | none =>
    refine ⟨l.usages b, [], by simp, by simp, fun x hx => ?_⟩
    rw [List.append_nil] at hx
    rw [usage?_eq, List.find?_eq_none] at hu
    simpa using hu x hx
  | some x =>
    obtain ⟨pre, post, hsplit, hne⟩ := hl.split hu
    exact ⟨pre, post, by simpa using hsplit, by simpa using hsplit, hne⟩

end Ledger

namespace World

variable {w : World α} {g : Registry α} {l : Ledger α} {b : BundleId} {ref : Reference} {x : Registration α}
  {u : Usage α} {o : α} {r : Nat} {os : List (Occurrence α)} {answers : Answer α → Prop} {Q : Outcome α → Prop}
  {held : List Handle} {asked asked' : List (Question α)} {replied replied' : List (Reply α)}

/-! ## One release -/

theorem ungetOne_of_none (hu : g.ledger.usage? b ref.id = none) : w.ungetOne r g b ref = (false, none, w, []) := by
  have hrelease : g.ledger.release b ref.id (!w.isValid ref.target) = (.notFound, g.ledger) := by
    simp only [Ledger.release, hu]
  simp only [ungetOne, hrelease]

theorem ungetOne_of_many (hl : g.ledger.Sound) (hvalid : w.isValid ref.target = true)
    (hu : g.ledger.usage? b ref.id = some u) (hmany : 1 < u.count) : ∃ l : Ledger α, l.Sound ∧
      g.ledger.Edit l b ref.id (some u) (some { u with count := u.count - 1 }) ∧
      w.ungetOne r g b ref =
        (true, none, w.setRegistry r { g with ledger := l }, [.released r b ref (u.count - 1)]) := by
  rcases Ledger.release_cases hl b ref.id false with ⟨hnone, -⟩ | ⟨u', hu', -, -, hrel, hs, he⟩ | ⟨u', hu', hlast, -⟩
  · cases hu.symm.trans hnone
  · obtain rfl := Option.some.inj (hu.symm.trans hu')
    have hrelease : g.ledger.release b ref.id (!w.isValid ref.target) =
        (.decremented (u.count - 1), (g.ledger.release b ref.id false).2) := by
      rw [hvalid]
      exact Prod.ext hrel rfl
    refine ⟨_, hs, he, ?_⟩
    simp only [ungetOne, hrelease]
  · obtain rfl := Option.some.inj (hu.symm.trans hu')
    have := hlast.resolve_left (by simp)
    omega

theorem ungetOne_of_last (hl : g.ledger.Sound) (hvalid : w.isValid ref.target = true)
    (hu : g.ledger.usage? b ref.id = some u) (hlast : u.count ≤ 1) : ∃ l : Ledger α, l.Sound ∧
      g.ledger.Edit l b ref.id (some u) none ∧
      w.ungetOne r g b ref = (true, u.object.filter (fun _ => w.isAlive ref.target && w.isFactory ref.target),
        w.setRegistry r { g with ledger := l }, [.flushed r b ref]) := by
  rcases Ledger.release_cases hl b ref.id false with ⟨hnone, -⟩ | ⟨u', hu', -, hmany, -⟩ | ⟨u', hu', -, hrel, hs, he⟩
  · cases hu.symm.trans hnone
  · obtain rfl := Option.some.inj (hu.symm.trans hu')
    omega
  · obtain rfl := Option.some.inj (hu.symm.trans hu')
    have hrelease : g.ledger.release b ref.id (!w.isValid ref.target) =
        (.flushed u.object, (g.ledger.release b ref.id false).2) := by
      rw [hvalid]
      exact Prod.ext hrel rfl
    refine ⟨_, hs, he, ?_⟩
    simp only [ungetOne, hrelease]

/-! ## The world with another ledger -/

def withLedger (w : World α) (g : Registry α) (l : Ledger α) (held : List Handle) : World α :=
  { w with registries := #[{ g with ledger := l }], held := held }

/-- The ledger is `l` now, and nothing else changed. -/
structure Rebooked (w : World α) (g : Registry α) (l : Ledger α) (asked : List (Question α)) (replied : List (Reply α))
    (out : Outcome α) : Prop where
  world : ∃ held, out.1 = w.withLedger g l held
  asked : questions out.2 = asked
  replied : replies out.2 = replied

structure Offers (w : World α) (g : Registry α) (ref : Reference) (x : Registration α) : Prop where
  sole : w.registries = #[g]
  turn : w.isClientsTurn = true
  known : g.knows ref = true
  behind : w.behind? ref = some x
  alive : ∀ l held, (w.withLedger g l held).isAlive ref.target = true

theorem withLedger_self (hsole : w.registries = #[g]) : w.withLedger g g.ledger w.held = w := by
  rw [withLedger, ← hsole]

theorem isAlive_withLedger (hst : Standing w g) (hvalid : w.isValid ref.target = true) (l : Ledger α)
    (held : List Handle) : (w.withLedger g l held).isAlive ref.target = true := by
  have hst' : Standing (World.onto { w with held := [] } none) g :=
    ⟨⟨hst.sole, hst.sound, hst.refs⟩, ⟨hst.valid, hst.listed, hst.hooked, hst.leaving⟩,
      ⟨hst.getting, hst.awaiting, hst.settled⟩⟩
  have halive : World.isAlive { w with held := [] } ref.target = true := hst'.isAlive (by simp) hvalid
  have hsole : World.registries { w with held := [] } = #[g] := hst.sole
  rw [isAlive, hsole] at halive
  rw [isAlive]
  simp only [List.contains_nil, Bool.false_or, Bool.or_eq_true] at halive ⊢
  rcases halive with hpinned | hlisted
  · exact Or.inl (Or.inr hpinned)
  · simpa [withLedger, World.isIndexed, registration?, Registry.isIndexed, Registry.owned] using Or.inr hlisted

theorem Standing.offers (hst : Standing w g) (hturn : w.isClientsTurn = true) (hknown : w.knows ref = true)
    (hx : w.behind? ref = some x) : Offers w g ref x where
  sole := hst.sole
  turn := hturn
  known := by rwa [knows_sole hst.sole] at hknown
  behind := hx
  alive := isAlive_withLedger hst (behind?_eq_some.mp hx).1

theorem Offers.valid (ho : Offers w g ref x) : w.isValid ref.target = true := (behind?_eq_some.mp ho.behind).1

theorem Offers.isFactory (ho : Offers w g ref x) : w.isFactory ref.target = x.source.isFactory := by
  rw [World.isFactory, (behind?_eq_some.mp ho.behind).2, Option.any_some]

/-- The next call goes on from there. -/
theorem Rebooked.next {p last : Outcome α} {l' : Ledger α} (h : Rebooked w g l asked replied p)
    (h' : Rebooked w g l' asked' replied' last) :
    Rebooked w g l' (asked ++ asked') (replied ++ replied') (last.1, p.2 ++ last.2) where
  world := h'.world
  asked := by rw [questions_append, h.asked, h'.asked]
  replied := by rw [replies_append, h.replied, h'.replied]

theorem Offers.play_get (ho : Offers w g ref x) (l : Ledger α) (held : List Handle) (b : BundleId) :
    (w.withLedger g l held).play (.call 0 (.get b ref)) = some (after [.called 0 (.get b ref), .acquired 0 b ref]
      ((w.withLedger g (l.acquire b ref).2 held).place (fetch 0 b ref (l.acquire b ref).1 x.source))) := by
  have hallows : (w.withLedger g l held).allows (.get b ref) = true :=
    (knows_sole (g := { g with ledger := l }) rfl ref).trans ho.known
  have hbehind : (w.withLedger g l held).behind? ref = some x := ho.behind
  rw [play_call (w := w.withLedger g l held) (g := { g with ledger := l }) ho.turn hallows rfl]
  show some (after _ ((w.withLedger g l held).get 0 _ b ref)) = _
  rw [get_of_valid _ _ _ _ hbehind, after_after]
  rfl

theorem Offers.play_unget (ho : Offers w g ref x) (l : Ledger α) (held : List Handle) (b : BundleId) :
    (w.withLedger g l held).play (.call 0 (.unget b ref)) = some (after [.called 0 (.unget b ref)]
      ((w.withLedger g l held).unget 0 { g with ledger := l } b ref)) := by
  have hallows : (w.withLedger g l held).allows (.unget b ref) = true :=
    (knows_sole (g := { g with ledger := l }) rfl ref).trans ho.known
  exact play_call (w := w.withLedger g l held) ho.turn hallows rfl

/-! ## Taking a use -/

theorem dueTo_nil (w : World α) (h : Handle) : w.dueTo h [] = [] := by
  unfold dueTo
  split <;> rfl

/-- From its final section a `get` comes to its return, with what is decided there. -/
theorem arrives_settle {v : World α} {k : Registry α} {e : Settlement α} {fresh : Bool} {cand : Option α} {h : Handle}
    (hat : v.registries[r]? = some k) (hturn : v.isClientsTurn = true) (hdone : answers .done)
    (he : e = v.settlement k h b ref fresh cand)
    (hend : ∀ held, Q ({ v.setRegistry r { k with ledger := e.ledger } with held := held },
      os ++ ((if cand.isNone then [.unresolved r b h] else []) ++ [.decided r b ref e.object]) ++
        (v.dueTo h (e.due.map (b, ·))).flatMap (goesBack h) ++
        ([.got r b ref e.object] ++ [.returned (.object e.object)]))) :
    Arrives answers v.stack.length (fun _ => True) Q
      ({ v with stack := .settling r h b ref fresh cand :: v.stack }, os) := by
  refine arrives_advance (Nat.le_refl _) rfl (fun _ => trivial) fun held => ?_
  refine ⟨World.settle { v with held := held } r k h b ref fresh cand, by simp only [advance?, hat, Option.map_some], ?_⟩
  rw [settle, show World.settlement { v with held := held } k h b ref fresh cand = e from he.symm]
  show Arrives _ _ _ _ (after os (after _
    (World.release { v.setRegistry r { k with ledger := e.ledger } with held := held } r h (e.due.map (b, ·)) _)))
  rw [after_after]
  refine arrives_release hdone (Nat.le_refl v.stack.length) (fun _ _ => trivial) fun held' => ?_
  show Arrives _ _ _ _ (after _ (after [.got r b ref e.object]
    (World.finish { v.setRegistry r { k with ledger := e.ledger } with held := held' } (.object e.object))))
  rw [after_after]
  refine arrives_finish (w := { v.setRegistry r { k with ledger := e.ledger } with held := held' }) hturn (by simp) ?_
  rw [List.append_assoc]
  exact hend held'

/-- A `get` that has an object to give comes to its return. -/
theorem arrives_settling {l' : Ledger α} {fresh : Bool} (hturn : w.isClientsTurn = true) (hdone : answers .done)
    (hsettles : (w.withLedger g l held).settlement { g with ledger := l } ref.target b ref fresh (some o) =
      ⟨some o, [], l'⟩) (hend : ∀ held, Q (w.withLedger g l' held,
        os ++ [.decided 0 b ref (some o), .got 0 b ref (some o), .returned (.object (some o))])) :
    Arrives answers w.stack.length (fun _ => True) Q
      ({ w.withLedger g l held with stack := .settling 0 ref.target b ref fresh (some o) :: w.stack }, os) := by
  refine arrives_settle (v := w.withLedger g l held) (k := { g with ledger := l }) (r := 0) rfl hturn hdone
    hsettles.symm fun held' => ?_
  show Q (w.withLedger g l' held', _)
  have hend := hend held'
  simpa [dueTo_nil] using hend

theorem Offers.settlement_cached (ho : Offers w g ref x) (l : Ledger α) (held : List Handle) (o : α) :
    (w.withLedger g l held).settlement { g with ledger := l } ref.target b ref false (some o) = ⟨some o, [], l⟩ := by
  have hvalid : (w.withLedger g l held).isValid ref.target = true := ho.valid
  simp only [settlement, hvalid]

/-- A further use of a pair gives what is cached. -/
theorem Offers.get_cached (ho : Offers w g ref x) (hdone : answers .done) (hl : l.Sound)
    (hu : l.usage? b ref.id = some u) (hcached : u.object = some o) : ∃ l' : Ledger α, l'.Sound ∧
      l.Edit l' b ref.id (some u) (some (Ledger.Usage.addUse u)) ∧
      ∀ held, (w.withLedger g l held).Ensures answers 0 (.get b ref) (fun _ => True)
        (Rebooked w g l' [] [.object (some o)]) := by
  have he := Ledger.edit_acquire hl b ref
  rw [hu] at he
  refine ⟨(l.acquire b ref).2, hl.acquire b ref, he, fun held => ⟨_, ho.play_get l held b, ?_⟩⟩
  have hfetch : fetch 0 b ref (l.acquire b ref).1 x.source = .settling 0 ref.target b ref false (some o) := by
    have hfound : (l.acquire b ref).1 = some o := by
      show (l.usage? b ref.id).bind _ = _
      rw [hu]
      exact hcached
    rw [hfound]
    rfl
  rw [hfetch]
  exact arrives_settling ho.turn hdone (ho.settlement_cached _ held o)
    fun held' => ⟨⟨held', rfl⟩, rfl, rfl⟩

/-- A fresh object is cached where there is none. -/
theorem Offers.settlement_fresh (ho : Offers w g ref x) (hl : l.Sound) (hu : l.usage? b ref.id = some u)
    (hnone : u.object = none) (o : α) : ∃ l' : Ledger α, l'.Sound ∧
      l.Edit l' b ref.id (some u) (some { u with object := some o }) ∧
      ∀ held, (w.withLedger g l held).settlement { g with ledger := l } ref.target b ref true (some o) =
        ⟨some o, [], l'⟩ := by
  rcases Ledger.store_cases hl b ref.id o with ⟨hu', -⟩ | ⟨u', c, hu', hc, -⟩ | ⟨u', hu', -, hkept, hs, he⟩
  · cases hu.symm.trans hu'
  · obtain rfl := Option.some.inj (hu.symm.trans hu')
    cases hnone.symm.trans hc
  · obtain rfl := Option.some.inj (hu.symm.trans hu')
    refine ⟨_, hs, he, fun held => ?_⟩
    have hvalid : (w.withLedger g l held).isValid ref.target = true := ho.valid
    have hstore : l.store b ref.id o = (.kept, (l.store b ref.id o).2) := Prod.ext hkept rfl
    simp only [settlement, hvalid]
    rw [hstore]

/-- The first use of a pair makes its entry and caches an object, which a factory is asked for. -/
theorem Offers.get_first (ho : Offers w g ref x) (hdone : answers .done) (hmakes : ∃ o, answers (.supplied (some o)))
    (hnever : ¬ answers (.supplied none)) (hl : l.Sound) (hu : l.usage? b ref.id = none) (held : List Handle) :
    (w.withLedger g l held).Ensures answers 0 (.get b ref) (fun _ => True) fun out => ∃ (o : α) (l' : Ledger α),
      l'.Sound ∧ l.Edit l' b ref.id none (some ⟨ref, 1, some o⟩) ∧
      Rebooked w g l' (if x.source.isFactory then [.supply ref.target b] else []) [.object (some o)] out := by
  have he := Ledger.edit_acquire hl b ref
  rw [hu] at he
  have hfound : (l.acquire b ref).1 = none := by
    show (l.usage? b ref.id).bind _ = _
    rw [hu]
    rfl
  have hsettle := fun o => ho.settlement_fresh (hl.acquire b ref) he.usage?_after rfl o
  refine ⟨_, ho.play_get l held b, ?_⟩
  rw [hfound]
  cases hsource : x.source with
  | object o =>
    obtain ⟨l', hl', he', hsettles⟩ := hsettle o
    exact arrives_settling ho.turn hdone (hsettles held) fun held' => ⟨o, l', hl', he.trans he', ⟨held', rfl⟩, rfl, rfl⟩
  | factory =>
    refine arrives_answer (w := w.withLedger g (l.acquire b ref).2 held) (q := .supply ref.target b) (Nat.le_refl _) rfl
      (fun _ => trivial) (fun _ => ?_) fun held' a out ha hout => ?_
    · obtain ⟨o, ho⟩ := hmakes
      exact ⟨_, ho, rfl⟩
    · cases a with
      | done => cases hout
      | verdict => cases hout
      | supplied o =>
        obtain rfl := Option.some.inj hout
        cases o with
        | none => exact absurd ha hnever
        | some o =>
          obtain ⟨l', hl', he', hsettles⟩ := hsettle o
          exact arrives_settling ho.turn hdone (hsettles held') fun held'' => ⟨o, l', hl', he.trans he', ⟨held'', rfl⟩, rfl, rfl⟩

/-! ## Giving a use back -/

/-- Without an entry there is nothing to give back. -/
theorem Offers.unget_none (ho : Offers w g ref x) (hu : l.usage? b ref.id = none) (held : List Handle) :
    (w.withLedger g l held).Ensures answers 0 (.unget b ref) (fun _ => True) (Rebooked w g l [] [.flag false]) := by
  refine ⟨_, ho.play_unget l held b, ?_⟩
  rw [unget, ungetOne_of_none (g := { g with ledger := l }) hu]
  show Arrives _ _ _ _ (after _ (after [] ((w.withLedger g l held).finish (.flag false))))
  rw [after_after]
  exact arrives_finish (w := w.withLedger g l held) ho.turn (by simp) ⟨⟨held, rfl⟩, rfl, rfl⟩

/-- One of several uses is given back. -/
theorem Offers.unget_many (ho : Offers w g ref x) (hl : l.Sound) (hu : l.usage? b ref.id = some u)
    (hmany : 1 < u.count) (held : List Handle) : ∃ l' : Ledger α, l'.Sound ∧
      l.Edit l' b ref.id (some u) (some { u with count := u.count - 1 }) ∧
      (w.withLedger g l held).Ensures answers 0 (.unget b ref) (fun _ => True) (Rebooked w g l' [] [.flag true]) := by
  obtain ⟨l', hl', he, hone⟩ := ungetOne_of_many (w := w.withLedger g l held) (r := 0) (g := { g with ledger := l }) hl
    ho.valid hu hmany
  refine ⟨l', hl', he, _, ho.play_unget l held b, ?_⟩
  rw [unget, hone]
  show Arrives _ _ _ _ (after _ (after _ ((w.withLedger g l' held).finish (.flag true))))
  rw [after_after]
  exact arrives_finish (w := w.withLedger g l' held) ho.turn (by simp) ⟨⟨held, rfl⟩, rfl, rfl⟩

/-- With the last use the entry goes, and its object goes back to a factory. -/
theorem Offers.unget_last (ho : Offers w g ref x) (hdone : answers .done) (hl : l.Sound)
    (hu : l.usage? b ref.id = some u) (hlast : u.count ≤ 1) (hcached : u.object = some o) (held : List Handle) :
    ∃ l' : Ledger α, l'.Sound ∧ l.Edit l' b ref.id (some u) none ∧
      (w.withLedger g l held).Ensures answers 0 (.unget b ref) (fun _ => True)
        (Rebooked w g l' (if x.source.isFactory then [.takeBack ref.target b o] else []) [.flag true]) := by
  obtain ⟨l', hl', he, hone⟩ := ungetOne_of_last (w := w.withLedger g l held) (r := 0) (g := { g with ledger := l }) hl
    ho.valid hu hlast
  refine ⟨l', hl', he, _, ho.play_unget l held b, ?_⟩
  have hfactory : (w.withLedger g l held).isFactory ref.target = x.source.isFactory := ho.isFactory
  rw [unget, hone, hcached, ho.alive, hfactory]
  cases hsource : x.source.isFactory with
  | false =>
    show Arrives _ _ _ _ (after _ (after _ ((w.withLedger g l' held).finish (.flag true))))
    rw [after_after]
    exact arrives_finish (w := w.withLedger g l' held) ho.turn (by simp) ⟨⟨held, rfl⟩, rfl, rfl⟩
  | true =>
    have hfactory' : (w.withLedger g l' held).isFactory ref.target = true := ho.isFactory.trans hsource
    show Arrives _ _ _ _ (after _ (after _ ((w.withLedger g l' held).release 0 ref.target [(b, o)] .ungot)))
    rw [after_after, release_of_factory hfactory']
    refine arrives_releasing hdone _ _ _ (Nat.le_refl w.stack.length) (fun _ _ => trivial) fun held' => ?_
    exact arrives_finish (w := w.withLedger g l' held') ho.turn (by simp) ⟨⟨held', rfl⟩, rfl, rfl⟩

end World

end Switchboard
