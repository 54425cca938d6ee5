/-
  Switchboard.Proofs.World.Reclaim — does a withdrawal reclaim all uses?

  A registry books a use in its own ledger, whichever registry handed out the reference, and a
  withdrawal drains the ledger of the registry it was asked of. So when the withdrawal has
  returned, this registry has no use of the registration on its books, nor has it later. Any
  other registry keeps the uses that were taken there before, and takes no more, since what is
  invalid cannot be bound. Where all uses were taken at the registry that withdraws, none is
  left anywhere (`withdrawal_reclaims`).

  A use taken at another registry survives (`use_survives_elsewhere`).
-/

import Switchboard.Proofs.World.Accounting
import Switchboard.Proofs.World.Provenance
import Switchboard.Proofs.World.Withdrawal

namespace Switchboard

namespace World

variable {α : Type} {w v : World α} {g : Registry α} {top : Option (Frame α)} {out : Outcome α} {f : Frame α}
  {os : List (Occurrence α)} {r : Nat} {b : BundleId} {q : Reference} {h : Handle} {ms : List (Move α)}

def usedAt (w : World α) (r : Nat) (b : BundleId) : List Reference :=
  ((w.registries[r]?).map fun g => g.ledger.references b).getD []

theorem mem_usedAt : q ∈ w.usedAt r b ↔
    ∃ g, w.registries[r]? = some g ∧ ∃ u ∈ g.ledger.usages b, u.reference = q := by
  unfold usedAt
  cases w.registries[r]? with
  | none => simp
  | some g => simp [Ledger.references, Ledger.usages]

/-! ## What a step books -/

/-- What is used after a step was used before, or its use was counted just now, of something
    valid. -/
def Books (v : World α) (out : Outcome α) : Prop :=
  ∀ s c q, q ∈ out.1.usedAt s c → q ∈ v.usedAt s c ∨ (.acquired s c q ∈ out.2 ∧ v.isValid q.target = true)

/-- No ledger changed. -/
theorem books_of_same (hreg : ∀ (s : Nat) (k : Registry α), out.1.registries[s]? = some k →
    ∃ k', v.registries[s]? = some k' ∧ k.ledger = k'.ledger) : Books v out := by
  intro s c q hq
  obtain ⟨k, hk, u, hu, hq⟩ := mem_usedAt.mp hq
  obtain ⟨k', hk', hledger⟩ := hreg s k hk
  rw [hledger] at hu
  exact Or.inl (mem_usedAt.mpr ⟨k', hk', u, hu, hq⟩)

/-- One ledger changed, and has no more than before but for what was booked. -/
theorem books_of_set (hg : v.registries[r]? = some g) {k : Registry α}
    (hset : out.1.registries = (v.setRegistry r k).registries)
    (hk : ∀ c, ∀ u ∈ k.ledger.usages c, (∃ u' ∈ g.ledger.usages c, u'.reference = u.reference) ∨
      (.acquired r c u.reference ∈ out.2 ∧ v.isValid u.reference.target = true)) : Books v out := by
  intro s c q hq
  obtain ⟨k', hk', u, hu, rfl⟩ := mem_usedAt.mp hq
  rw [hset] at hk'
  rcases registry_setRegistry hk' with ⟨rfl, rfl⟩ | ⟨-, hk'⟩
  · rcases hk c u hu with ⟨u', hu', href⟩ | hnew
    · exact Or.inl (mem_usedAt.mpr ⟨g, hg, u', hu', href⟩)
    · exact Or.inr hnew
  · exact Or.inl (mem_usedAt.mpr ⟨k', hk', u, hu, rfl⟩)

/-- An edit of an entry that leaves its reference alone books nothing. -/
theorem books_of_edit {l l' : Ledger α} {id : Nat} {x : Usage α} {y : Option (Usage α)}
    (he : l.Edit l' b id (some x) y) (hy : ∀ u ∈ y, u.reference = x.reference) :
    ∀ c, ∀ u ∈ l'.usages c, ∃ u' ∈ l.usages c, u'.reference = u.reference := by
  intro c u hu
  rcases he.mem hu with hu | ⟨rfl, hu⟩
  · exact ⟨u, hu, rfl⟩
  · exact ⟨x, (Ledger.mem_of_usage? he.usage?_before).1, (hy u hu).symm⟩

theorem books_of_settles {l : Ledger α} {id : Nat} {valid fresh : Bool} {o : Option α} {e : Settlement α}
    (hs : Settles l b id valid fresh o e) :
    ∀ c, ∀ u ∈ e.ledger.usages c, ∃ u' ∈ l.usages c, u'.reference = u.reference := by
  cases hs with
  | kept _ _ _ _ _ he => exact books_of_edit he (by simp)
  | spent _ _ _ _ he => exact books_of_edit he (by simp)
  | dropped _ _ _ he => exact books_of_edit he (by simp)
  | _ => exact fun c u hu => ⟨u, hu, rfl⟩

theorem books_step (hl : ∀ (r : Nat) (g : Registry α), v.registries[r]? = some g → g.ledger.Sound)
    (hs : Step v top out) : Books v out := by
  cases hs with
  | idle htop hi =>
    refine books_of_same fun s k hk => ?_
    obtain ⟨k', hk', hm⟩ := hi.alike.registry_before hk
    exact ⟨k', hk', by rw [hm.eq]⟩
  | publish _ _ _ _ _ hg => exact books_of_set hg rfl fun c u hu => Or.inl ⟨u, hu, rfl⟩
  | retire htop hf hg => exact books_of_set hg rfl fun c u hu => Or.inl ⟨u, hu, rfl⟩
  | drain f hg =>
    refine books_of_set hg rfl fun c u hu => Or.inl ⟨u, ?_, rfl⟩
    rw [Ledger.usages_drain (hl _ _ hg)] at hu
    exact (List.mem_filter.mp hu).1
  | @acquire r g b ref x os f hg hknown hx hf hos =>
    refine books_of_set hg rfl fun c u hu => ?_
    rcases (Ledger.edit_acquire (hl _ _ hg) b ref).mem hu with hu | ⟨rfl, hu⟩
    · exact Or.inl ⟨u, hu, rfl⟩
    · obtain rfl := Option.some.inj hu
      cases hbefore : g.ledger.usage? c ref.id with
      | none => exact Or.inr ⟨mem_of_gist hos, (behind?_eq_some.mp hx).1⟩
      | some u' => exact Or.inl ⟨u', (Ledger.mem_of_usage? hbefore).1, rfl⟩
  | settle e f hg he =>
    exact books_of_set hg rfl fun c u hu => Or.inl (books_of_settles (settles_of_eq (hl _ _ hg) he) c u hu)
  | decrement htop hf hg hknown hrel =>
    obtain ⟨u, -, -, -, -, he⟩ := Ledger.release_decremented (hl _ _ hg) hrel
    exact books_of_set hg rfl fun c u hu => Or.inl (books_of_edit he (by simp) c u hu)
  | flush k htop hf hg hknown hrel =>
    obtain ⟨u, -, -, -, he⟩ := Ledger.release_flushed (hl _ _ hg) hrel
    exact books_of_set hg rfl fun c u hu => Or.inl (books_of_edit he (by simp) c u hu)
  | _ => exact books_of_same fun s k hk => ⟨k, hk, rfl⟩

theorem Provided.books (hp : Provided (v.onto top) os) (hs : Step v top out) : Books v out :=
  books_step (fun r g hg => (hp.stocked r g hg).sound) hs

/-! ## What is booked was taken there -/

def Taken (w : World α) (os : List (Occurrence α)) : Prop := ∀ s c q, q ∈ w.usedAt s c → .acquired s c q ∈ os

theorem usedAt_start (setups : List (Config × Bool)) (r : Nat) (b : BundleId) :
    (start setups : World α).usedAt r b = [] := by
  refine List.eq_nil_iff_forall_not_mem.mpr fun q hq => ?_
  obtain ⟨g, hg, u, hu, -⟩ := mem_usedAt.mp hq
  obtain ⟨_, _, -, rfl⟩ := registry_start hg
  rw [Registry.ofConfig, Ledger.usages_withCapacity] at hu
  cases hu

theorem Taken.step (ht : Taken (v.onto top) os) (hbooks : Books v out) : Taken out.1 (os ++ out.2) := by
  intro s c q hq
  rcases hbooks s c q hq with hq | ⟨hacquired, -⟩
  · exact List.mem_append_left _ (ht s c q hq)
  · exact List.mem_append_right _ hacquired

theorem taken_run {setups : List (Config × Bool)} (hrun : (start setups).run ms = some out) :
    Provided out.1 out.2 ∧ Taken out.1 out.2 := by
  refine run_induction (P := fun w os => Provided w os ∧ Taken w os) ?_ ms _ [] out ⟨provided_start setups, ?_⟩ hrun
  · rintro w os m out ⟨hp, ht⟩ hplay
    refine ⟨provided_play hp hplay, ?_⟩
    obtain ⟨v, top, rfl, -, hs⟩ := play_step hplay
    exact ht.step (hp.books hs)
  · intro s c q hq
    rw [usedAt_start] at hq
    cases hq

/-! ## After the drain -/

/-- `h` is invalid, and registry `r` has no use of it on its books. -/
structure Cleared (w : World α) (r : Nat) (h : Handle) : Prop where
  invalid : w.phase? h = some .invalid
  unused : ∀ c, ∀ q ∈ w.usedAt r c, q.target ≠ h

theorem Cleared.step (hc : Cleared (v.onto top) r h) (hbooks : Books v out) (hs : Step v top out) :
    Cleared out.1 r h := by
  refine ⟨invalid_step hs hc.invalid, fun c q hq => ?_⟩
  rcases hbooks r c q hq with hq | ⟨-, hvalid⟩
  · exact hc.unused c q hq
  · exact target_ne_of_isValid hc.invalid hvalid

/-- The drain of a withdrawal clears the books. -/
theorem cleared_drain (hl : g.ledger.Sound) (hx : (v.registration? h).isSome) :
    Cleared (v.drain r g h).1 r h := by
  obtain ⟨x, hx⟩ := Option.isSome_iff_exists.mp hx
  constructor
  · show (v.setPhase h .invalid).phase? h = _
    rw [phase?_setPhase, if_pos rfl, phase?_of_some hx]
    rfl
  · intro c q hq
    obtain ⟨k, hk, u, hu, rfl⟩ := mem_usedAt.mp hq
    have hk' : (v.setRegistry r { g with ledger := (g.ledger.drain h).ledger }).registries[r]? = some k := hk
    rcases registry_setRegistry hk' with ⟨-, rfl⟩ | ⟨hne, -⟩
    · rw [Ledger.usages_drain hl] at hu
      simpa using (List.mem_filter.mp hu).2
    · exact absurd rfl hne

/-! ## A whole withdrawal -/

inductive Withdrawing (w : World α) (r : Nat) (h : Handle) : Frame α → Prop
  | told (hx : (w.registration? h).isSome) : Withdrawing w r h (.withdrawing r h)
  | draining (hx : (w.registration? h).isSome) : Withdrawing w r h (.draining r h)
  | drained {due : List (BundleId × α)} (hc : Cleared w r h) : Withdrawing w r h (.releasing r h due .withdrawn)

theorem Withdrawing.step (hf : Withdrawing (v.onto top) r h f) (hbooks : Books v out) (hs : Step v top out) :
    Withdrawing out.1 r h f := by
  cases hf with
  | told hx => exact .told (registered_step hs hx)
  | draining hx => exact .draining (registered_step hs hx)
  | drained hc => exact .drained (hc.step hbooks hs)

/-- A call that does not start a withdrawal does not return that it withdrew something. -/
theorem withdrawing_call (hplay : w.play (.call r (.unregister b h)) = some out) :
    (out.1.stack = w.stack ∧ out.2.getLast? ≠ some (.returned (.flag true))) ∨
      ∃ f, out.1.stack = f :: w.stack ∧ Withdrawing out.1 r h f := by
  obtain ⟨hturn, -, g, -, rfl⟩ := calls_of_play hplay
  have hfinish : ∀ (os : List (Occurrence α)) (reply : Reply α), (∀ t, reply ≠ .published t) → reply ≠ .flag true →
      ((after os (w.finish reply)).1.stack = w.stack ∧
        (after os (w.finish reply)).2.getLast? ≠ some (.returned (.flag true))) := by
    intro os reply hpublished hflag
    rw [finish_eq hturn hpublished]
    refine ⟨rfl, ?_⟩
    rw [after, List.getLast?_append]
    simpa using hflag
  have hafter : ∀ {os : List (Occurrence α)} {o : Outcome α}, after [.called r (.unregister b h)] (after os o) =
      after (.called r (.unregister b h) :: os) o := rfl
  rw [call, unregister]
  cases hx : w.registration? h with
  | none => exact Or.inl (hfinish _ _ (by simp) (by simp))
  | some x =>
    dsimp only
    split
    · rw [withdraw]
      cases hretire : w.retire? r g h with
      | none =>
        rw [hafter]
        exact Or.inl (hfinish _ _ (by simp) (by simp))
      | some w' =>
        obtain ⟨y, hy, -, -, rfl⟩ := retire?_eq_some hretire
        have hregistered : ((w.setPhase h .unregistering).registration? h).isSome := by
          rw [registration?_setPhase, if_pos rfl, hy]
          rfl
        refine Or.inr ⟨_, rfl, ?_⟩
        cases g.hasSink with
        | true => exact .told hregistered
        | false => exact .draining hregistered
    · exact Or.inl (hfinish _ _ (by simp) (by simp))

/-- A withdrawal that is innermost goes on, or is over with the books cleared. -/
theorem Withdrawing.goesOn (hp : Provided (v.onto (some f)) os) (hf : Withdrawing (v.onto (some f)) r h f)
    (hgo : GoesOn v f out) :
    (∃ f', out.1.stack = f' :: v.stack ∧ Withdrawing out.1 r h f') ∨
      (out.1.stack = v.stack ∧ Cleared out.1 r h) := by
  have hbooks := hp.books hgo.step
  cases hf with
  | told hx =>
    rcases hgo with ⟨q, a, o, -, ho, rfl⟩ | hout
    · cases a with
      | done =>
        obtain rfl := Option.some.inj ho
        exact Or.inl ⟨_, rfl, .draining hx⟩
      | verdict => cases ho
      | supplied => cases ho
    · cases hout
  | draining hx =>
    rcases hgo with ⟨q, a, o, hq, -, -⟩ | hout
    · cases hq
    · obtain ⟨g, hg, rfl⟩ := Option.map_eq_some_iff.mp hout
      exact Or.inl ⟨_, rfl, .drained (cleared_drain (hp.stocked r g hg).sound hx)⟩
  | @drained due hc =>
    have hc' := hc.step hbooks hgo.step
    cases due with
    | nil =>
      rw [goesOn_handed hgo] at hc' ⊢
      exact Or.inr ⟨by simp [conclude, after, stack_finish], hc'⟩
    | cons d due => exact Or.inl ⟨_, goesOn_handing hgo, .drained hc'⟩

/-- A withdrawal returns with the books cleared. -/
theorem cleared_of_returns (hp : Provided w os) (hret : Returns w r (.unregister b h) ms out (.flag true)) :
    Cleared out.1 r h := by
  have hmoves := hret.frame_induction (Q := fun _ f o => Provided o.1 (os ++ o.2) ∧ Withdrawing o.1 r h f) ?hcall ?habove
    ?hgoes
  case hcall =>
    intro o hplay hmore
    rcases withdrawing_call hplay with ⟨hstack, -⟩ | ⟨f, hf, hat⟩
    · rw [hstack] at hmore
      omega
    · exact ⟨f, hf, provided_play hp hplay, hat⟩
  case habove =>
    rintro ⟨w', os'⟩ m last p p' f - ⟨hp, hat⟩ hplay -
    rw [← List.append_assoc]
    obtain ⟨v, top, rfl, -, hs⟩ := play_step hplay
    have hbooks : Books v last := hp.books hs
    have hnext : Withdrawing last.1 r h f := hat.step hbooks hs
    exact ⟨provided_step hp hs, hnext⟩
  case hgoes =>
    rintro ⟨w', os'⟩ m last f hstack ⟨hp, hat⟩ - hgo hmore
    rw [eq_onto (show w'.stack = f :: w.stack from hstack)] at hp hat
    rw [← List.append_assoc]
    rcases hat.goesOn hp hgo with ⟨f', hf', hat'⟩ | ⟨hstack', -⟩
    · exact ⟨f', hf', provided_step hp hgo.step, hat'⟩
    · rw [hstack'] at hmore
      exact absurd hmore (Nat.lt_irrefl _)
  rcases hmoves with hplay | ⟨⟨w', os'⟩, f, last, hstack, ⟨hp, hat⟩, hgo, rfl⟩
  · rcases withdrawing_call hplay with ⟨-, hreply⟩ | ⟨f, hf, -⟩
    · exact absurd hret.reply hreply
    · have hback := hret.back
      rw [hf, List.length_cons] at hback
      omega
  · rw [eq_onto (show w'.stack = f :: w.stack from hstack)] at hp hat
    rcases hat.goesOn hp hgo with ⟨f', hf', -⟩ | ⟨-, hc⟩
    · have hback := hret.back
      rw [show last.1.stack = _ from hf', List.length_cons] at hback
      exact absurd hback (Nat.succ_ne_self _)
    · exact hc

/-- Once the books are cleared they stay so, and no registry books a use of `h` any more. -/
theorem Cleared.run {last : Outcome α} (hc : Cleared w r h) (hp : Provided w os) (hrun : w.run ms = some last) :
    Cleared last.1 r h ∧ ∀ s c, ∀ q ∈ last.1.usedAt s c, q.target = h → q ∈ w.usedAt s c := by
  have hall := run_induction (P := fun w' os' => Provided w' os' ∧ Cleared w' r h ∧
    ∀ s c, ∀ q ∈ w'.usedAt s c, q.target = h → q ∈ w.usedAt s c) ?_ ms w os last ⟨hp, hc, fun s c q hq _ => hq⟩ hrun
  · exact hall.2
  · rintro w' os' m out ⟨hp, hc, hold⟩ hplay
    refine ⟨provided_play hp hplay, ?_⟩
    obtain ⟨v, top, rfl, -, hs⟩ := play_step hplay
    have hbooks := hp.books hs
    refine ⟨hc.step hbooks hs, fun s c q hq htarget => ?_⟩
    rcases hbooks s c q hq with hq | ⟨-, hvalid⟩
    · exact hold s c q hq htarget
    · exact absurd htarget (target_ne_of_isValid hc.invalid hvalid)

/-! ## Every run -/

/-- When a withdrawal has returned, then and ever after: what is still used of the registration
    is used at another registry, where its use was taken before. So if all uses were taken at
    the registry that withdrew it, no registry has one. -/
theorem withdrawal_reclaims {setups : List (Config × Bool)} {before after : List (Move α)} {last : Outcome α}
    (hbefore : (start setups).run before = some (w, os))
    (hret : Returns w r (.unregister b h) ms out (.flag true)) (hafter : out.1.run after = some last) :
    (∀ s c, ∀ q ∈ last.1.usedAt s c, q.target = h →
      s ≠ r ∧ q ∈ out.1.usedAt s c ∧ .acquired s c q ∈ os ++ out.2) ∧
    ((∀ s c q, .acquired s c q ∈ os ++ out.2 → q.target = h → s = r) →
      ∀ s c, ∀ q ∈ last.1.usedAt s c, q.target ≠ h) := by
  have hwhole : (start setups).run (before ++ .call r (.unregister b h) :: ms) = some (out.1, os ++ out.2) := by
    rw [run_append, hbefore, Option.bind_some, hret.run]
    rfl
  obtain ⟨hp, htaken⟩ := taken_run hwhole
  have hcleared := cleared_of_returns (provided_run hbefore) hret
  obtain ⟨hlater, hold⟩ := hcleared.run hp hafter
  have hleft : ∀ s c, ∀ q ∈ last.1.usedAt s c, q.target = h →
      s ≠ r ∧ q ∈ out.1.usedAt s c ∧ .acquired s c q ∈ os ++ out.2 := by
    intro s c q hq htarget
    have hthen := hold s c q hq htarget
    refine ⟨?_, hthen, htaken s c q hthen⟩
    rintro rfl
    exact hlater.unused c q hq htarget
  refine ⟨hleft, fun hhome s c q hq htarget => ?_⟩
  obtain ⟨hne, -, hacquired⟩ := hleft s c q hq htarget
  exact hne (hhome s c q hacquired htarget)

/-- A service is used at the registry that published it and at another one. -/
def usedTwice : List (Move Nat) :=
  [.call 0 (.register 1 "a" (.object 5) none), .call 0 (.findOne "a"),
   .call 0 (.get 5 ⟨1, 1, 0⟩), .tick, .tick, .call 1 (.get 6 ⟨1, 1, 0⟩), .tick, .tick]

theorem withdrawal_reclaims_usedTwice : ∃ w os out,
    (start [(Config.standard, false), (Config.standard, false)]).run usedTwice = some (w, os) ∧
    Returns w 0 (.unregister 1 0) [.tick, .tick] out (.flag true) ∧
    (∀ s c, ∀ q ∈ out.1.usedAt s c, q.target = 0 →
      s ≠ 0 ∧ q ∈ out.1.usedAt s c ∧ .acquired s c q ∈ os ++ out.2) ∧
    ((∀ s c q, .acquired s c q ∈ os ++ out.2 → q.target = 0 → s = 0) →
      ∀ s c, ∀ q ∈ out.1.usedAt s c, q.target ≠ 0) := by
  have hany : ((start [(Config.standard, false), (Config.standard, false)]).run usedTwice).any (fun out =>
      out.1.returns 0 (.unregister 1 0) [.tick, .tick] fun o => o.2.getLast?.any (·.returnsTrue)) = true := by
    decide +kernel
  obtain ⟨⟨w, os⟩, hbefore, hw⟩ := (Option.any_eq_true _ _).mp hany
  obtain ⟨out, hlast, hret⟩ := returns_of_all hw
  obtain ⟨o, ho, htrue⟩ := (Option.any_eq_true _ _).mp hlast
  obtain rfl := Occurrence.eq_of_returnsTrue htrue
  have hret := hret _ ho
  have hnow : out.1.run [] = some (out.1, []) := rfl
  have hleft := withdrawal_reclaims hbefore hret hnow
  exact ⟨w, os, out, hbefore, hret, hleft⟩

/-- The use at the other registry is still booked when the withdrawal has returned. -/
theorem use_survives_elsewhere : ∃ w os out,
    (start [(Config.standard, false), (Config.standard, false)]).run usedTwice = some (w, os) ∧
    Returns w 0 (.unregister 1 0) [.tick, .tick] out (.flag true) ∧ ⟨1, 1, 0⟩ ∈ out.1.usedAt 1 6 := by
  have hany : ((start [(Config.standard, false), (Config.standard, false)]).run usedTwice).any (fun out =>
      out.1.returns 0 (.unregister 1 0) [.tick, .tick] fun o =>
        o.2.getLast?.any (·.returnsTrue) && (o.1.usedAt 1 6).contains ⟨1, 1, 0⟩) = true := by
    decide +kernel
  obtain ⟨⟨w, os⟩, hbefore, hw⟩ := (Option.any_eq_true _ _).mp hany
  obtain ⟨out, hout, hret⟩ := returns_of_all hw
  obtain ⟨hlast, hused⟩ := Bool.and_eq_true_iff.mp hout
  obtain ⟨o, ho, htrue⟩ := (Option.any_eq_true _ _).mp hlast
  obtain rfl := Occurrence.eq_of_returnsTrue htrue
  exact ⟨w, os, out, hbefore, hret _ ho, List.contains_iff_mem.mp hused⟩

end World

end Switchboard
