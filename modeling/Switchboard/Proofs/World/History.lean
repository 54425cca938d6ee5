/-
  Switchboard.Proofs.World.History — the versions of a registration's properties.

  A history keeps all calls in the order they start, with what each published and what it returned so
  far, and the old properties that the sink was told, in the order their deliveries start, but for
  those that the client asks to be told (`History.record`). The versions of a registration are what it
  was published with and then what each call supplied that set its properties, which are the calls
  that returned so and those that have still to return (`History.versions`).

  The calls without a return are those in flight, which is why a call that has replaced properties
  counts before it returns, and goes on to count (`history_turn`). So a registration shows the latest
  version, stamped, and the sink was told each version before it, stamped, in order
  (`properties_history`).
-/

import Switchboard.Proofs.World.Stamped

namespace Switchboard

variable {α : Type}

/-! ## Histories -/

/-- A call, with the registration that it published and what it returned so far. -/
structure Request (α : Type) where
  op : Operation α
  made : Option Handle
  reply : Option (Reply α)

namespace Request

def given? (q : Request α) : Option (Handle × Properties) :=
  match q.op, q.made with
  | .register _ _ _ p, some h => some (h, p.getD .empty)
  | _, _ => none

def set? (q : Request α) : Option (Handle × Properties) :=
  match q.op with
  | .setProperties h p => if q.reply.all Reply.isTrue then some (h, p) else none
  | _ => none

end Request

structure History (α : Type) where
  requests : List (Request α)
  /-- What the sink was told to have been shown before, but for what the client asked it to be told. -/
  told : List (Handle × Properties)

def ofHandle (es : List (Handle × Properties)) (h : Handle) : List Properties := (es.filter (·.1 == h)).map (·.2)

namespace History

/-- Changes the innermost call that has not returned. -/
def amend (f : Request α → Request α) : List (Request α) → List (Request α)
  | [] => []
  | q :: qs => if q.reply.isNone then f q :: qs else q :: amend f qs

def opened (y : History α) : List (Operation α) := (y.requests.filter (·.reply.isNone)).map (·.op)

def record (y : History α) : Occurrence α → History α
  | .called _ op => { y with requests := ⟨op, none, none⟩ :: y.requests }
  | .published _ h => { y with requests := amend (fun q => { q with made := some h }) y.requests }
  | .returned reply => { y with requests := amend (fun q => { q with reply := some reply }) y.requests }
  | .asked (.event _ .modified h (some old)) =>
    if y.opened.head?.any Operation.tells then y else { y with told := y.told ++ [(h, old)] }
  | _ => y

def read (y : History α) (os : List (Occurrence α)) : History α := os.foldl record y

def givens (y : History α) : List (Handle × Properties) := y.requests.reverse.filterMap Request.given?

def sets (y : History α) : List (Handle × Properties) := y.requests.reverse.filterMap Request.set?

/-- What `h` was published with, and then what was set. -/
def versions (y : History α) (h : Handle) : List Properties := ofHandle y.givens h ++ ofHandle y.sets h

end History

def historyOf (os : List (Occurrence α)) : History α := History.read ⟨[], []⟩ os

theorem ofHandle_append (es es' : List (Handle × Properties)) (h : Handle) :
    ofHandle (es ++ es') h = ofHandle es h ++ ofHandle es' h := by
  simp [ofHandle]

theorem ofHandle_singleton (t : Handle) (p : Properties) (h : Handle) :
    ofHandle [(t, p)] h = if t = h then [p] else [] := by
  by_cases ht : t = h <;> simp [ofHandle, ht]

namespace History

variable {y : History α} {l : Log α} {os : List (Occurrence α)} {f : Request α → Request α} {qs : List (Request α)}

theorem read_append (y : History α) (os os' : List (Occurrence α)) : y.read (os ++ os') = (y.read os).read os' :=
  List.foldl_append

theorem read_news (y : History α) (os : List (Occurrence α)) : y.read (news os) = y.read os := by
  have hskip : ∀ (y : History α) (o : Occurrence α), o.isNews = false → y.record o = y := by
    intro y o ho
    cases o with
    | asked q =>
      cases q with
      | event => cases ho
      | _ => rfl
    | called => cases ho
    | returned => cases ho
    | published => cases ho
    | _ => rfl
  induction os generalizing y with
  | nil => rfl
  | cons o os ih =>
    show (news (o :: os)).foldl record y = (y.record o).read os
    rw [news, List.filter_cons]
    split
    · exact ih (y.record o)
    · rename_i ho
      rw [hskip y o (Bool.eq_false_iff.mpr ho)]
      exact ih y

/-! ## The calls that have not returned -/

theorem opened_amend (hop : ∀ q, (f q).op = q.op) (hopen : ∀ q, (f q).reply = q.reply) :
    ((amend f qs).filter (·.reply.isNone)).map (·.op) = (qs.filter (·.reply.isNone)).map (·.op) := by
  induction qs with
  | nil => rfl
  | cons q qs ih =>
    by_cases hq : q.reply.isNone
    · simp [amend, hq, hop, hopen]
    · simp [amend, hq, ih]

theorem opened_close (reply : Reply α) : ((amend (fun q => { q with reply := some reply }) qs).filter
    (·.reply.isNone)).map (·.op) = ((qs.filter (·.reply.isNone)).map (·.op)).tail := by
  induction qs with
  | nil => rfl
  | cons q qs ih =>
    by_cases hq : q.reply.isNone
    · simp [amend, hq]
    · simp [amend, hq, ih]

theorem requests_asked (y : History α) (q : Question α) : (y.record (.asked q)).requests = y.requests := by
  cases q with
  | event r kind h old =>
    cases kind <;> cases old <;> try rfl
    rw [record]
    split <;> rfl
  | _ => rfl

theorem pending_asked (l : Log α) (q : Question α) : (l.record (.asked q)).pending = l.pending := by
  cases q with
  | event r kind h old =>
    rw [Log.record]
    split <;> rfl
  | _ => rfl

/-- They are those that the log has as not over. -/
theorem opened_record (hl : y.opened = l.pending.map (·.op)) (o : Occurrence α) :
    (y.record o).opened = (l.record o).pending.map (·.op) := by
  cases o with
  | called r op => simpa [record, Log.record, opened] using hl
  | published r h => exact (opened_amend (f := fun q => { q with made := some h }) (fun _ => rfl) fun _ => rfl).trans hl
  | returned reply =>
    refine (opened_close reply).trans ?_
    rw [show (y.requests.filter (·.reply.isNone)).map (·.op) = _ from hl, Log.record]
    cases hp : l.pending <;> simp [hp]
  | retired r h =>
    rw [Log.record]
    refine hl.trans ?_
    cases l.pending <;> rfl
  | asked q =>
    rw [opened, requests_asked, pending_asked]
    exact hl
  | _ => exact hl

theorem opened_read (hl : y.opened = l.pending.map (·.op)) (os : List (Occurrence α)) :
    (y.read os).opened = (l.read os).pending.map (·.op) := by
  induction os generalizing y l with
  | nil => exact hl
  | cons o os ih => exact ih (opened_record hl o)

theorem opened_historyOf (os : List (Occurrence α)) : (historyOf os).opened = (logOf os).pending.map (·.op) :=
  opened_read rfl os

/-! ## What a move adds -/

/-- The history `y'` is `y` with these added, if any: what something was published with, what was set, and what the
    sink was told. -/
structure Adds (y : History α) (given set old : Option (Handle × Properties)) (y' : History α) : Prop where
  givens : y'.givens = y.givens ++ given.toList
  sets : y'.sets = y.sets ++ set.toList
  told : y'.told = y.told ++ old.toList

theorem Adds.nothing (y : History α) : Adds y none none none y := by
  constructor <;> simp

/-- A call starts. -/
theorem adds_request {y' : History α} (q : Request α) (old : Option (Handle × Properties))
    (hrequests : y'.requests = q :: y.requests) (htold : y'.told = y.told ++ old.toList) :
    Adds y q.given? q.set? old y' := by
  have hone : ∀ k : Request α → Option (Handle × Properties), [q].filterMap k = (k q).toList := by
    intro k
    cases hk : k q <;> simp [hk]
  constructor
  · simp [givens, hrequests, hone]
  · simp [sets, hrequests, hone]
  · exact htold

/-- It has neither published nor set anything, and the sink is not told of it. -/
theorem adds_idle {y' : History α} (q : Request α) (hgiven : q.given? = none) (hset : q.set? = none)
    (hrequests : y'.requests = q :: y.requests) (htold : y'.told = y.told) : Adds y none none none y' := by
  have hadds := adds_request q none hrequests (htold.trans (List.append_nil _).symm)
  rwa [hgiven, hset] at hadds

/-- A call that is declined neither publishes nor sets anything. -/
theorem adds_declined (y : History α) (r : Nat) {op : Operation α} {reply : Reply α} (hdeclines : Declines op reply) :
    Adds y none none none (y.read [.called r op, .returned reply]) := by
  have hgiven : Request.given? ⟨op, none, some reply⟩ = none := by cases op <;> rfl
  have hset : Request.set? ⟨op, none, some reply⟩ = none := by
    cases op with
    | setProperties h p =>
      have hreply := hdeclines.2 h p rfl
      cases reply with
      | flag b => cases b <;> simp_all [Request.set?, Reply.isTrue]
      | _ => rfl
    | _ => rfl
  exact adds_idle _ hgiven hset rfl rfl

/-- Nor does one that only starts. -/
theorem adds_started (y : History α) (r : Nat) {op : Operation α} (hset : ∀ h p, op ≠ .setProperties h p) :
    Adds y none none none (y.read [.called r op]) := by
  have hgiven : Request.given? ⟨op, none, none⟩ = none := by cases op <;> rfl
  have hunset : Request.set? ⟨op, none, none⟩ = none := by
    cases op with
    | setProperties h p => exact absurd rfl (hset h p)
    | _ => rfl
  exact adds_idle _ hgiven hunset rfl rfl

/-- A change of the innermost call that does not show. -/
theorem filterMap_amend {op : Operation α} {ops : List (Operation α)} {k : Request α → Option (Handle × Properties)}
    (hop : (qs.filter (·.reply.isNone)).map (·.op) = op :: ops)
    (hk : ∀ q, q.reply = none → q.op = op → k (f q) = k q) : (amend f qs).filterMap k = qs.filterMap k := by
  induction qs with
  | nil => rfl
  | cons q qs ih =>
    by_cases hq : q.reply.isNone
    · have hfirst : q.op = op := by
        simp only [List.filter_cons, hq, if_true, List.map_cons, List.cons.injEq] at hop
        exact hop.1
      simp only [amend, hq, if_true, List.filterMap_cons, hk q (Option.isNone_iff_eq_none.mp hq) hfirst]
    · simp only [List.filter_cons, hq, Bool.false_eq_true, if_false] at hop
      simp only [amend, hq, Bool.false_eq_true, if_false, List.filterMap_cons, ih hop]

/-- The innermost call returns, and if it set properties says so. -/
theorem adds_return {op : Operation α} {ops : List (Operation α)} {reply : Reply α} (hop : y.opened = op :: ops)
    (hset : ∀ h p, op = .setProperties h p → reply = .flag true) :
    Adds y none none none (y.record (.returned reply)) := by
  constructor
  · simp only [givens, record, List.filterMap_reverse, Option.toList_none, List.append_nil]
    rw [filterMap_amend hop]
    intro q _ _
    rfl
  · simp only [sets, record, List.filterMap_reverse, Option.toList_none, List.append_nil]
    rw [filterMap_amend hop]
    rintro ⟨op', made, reply'⟩ rfl rfl
    cases op' with
    | setProperties h p => simp [Request.set?, hset h p rfl, Reply.isTrue]
    | _ => rfl
  · simp [record]

end History

def givenBy : List (Occurrence α) → Option (Handle × Properties)
  | .called _ (.register _ _ _ p) :: .published _ h :: _ => some (h, p.getD .empty)
  | _ => none

def setBy : List (Occurrence α) → Option (Handle × Properties)
  | .called _ (.setProperties h p) :: .replaced _ _ _ :: _ => some (h, p)
  | _ => none

def replacedBy : List (Occurrence α) → Option (Handle × Properties)
  | .called _ (.setProperties _ _) :: .replaced _ h old :: _ => some (h, old)
  | _ => none

namespace World

variable {w v : World α} {top : Option (Frame α)} {ns os : List (Occurrence α)} {p : List (Frame α)} {y : History α}
  {cs : List (Call α)} {hasSink : Bool} {out : Outcome α} {m : Move α}

/-- A turn adds what its news tell. -/
theorem history_turn (ht : Turn v top ns p) (hopen : y.opened = cs.map (·.op)) (hfits : Fits cs (top.toList ++ v.stack))
    (hsink : ∀ (r : Nat) (g : Registry α), v.registries[r]? = some g → g.hasSink = hasSink) :
    y.Adds (givenBy ns) (setBy ns) (if hasSink then replacedBy ns else none) (y.read ns) := by
  have hidle : ∀ {y' : History α}, y.Adds none none none y' → y.Adds none none (if hasSink then none else none) y' := by
    intro y' hadds
    rwa [ite_self]
  cases ht with
  | holds => exact hidle (.nothing y)
  | @declines r op reply hdeclines =>
    have htells : givenBy [.called r op, .returned reply] = none ∧ setBy [.called r op, .returned reply] = none ∧
        replacedBy [.called r op, .returned reply] = none := by
      cases op <;> exact ⟨rfl, rfl, rfl⟩
    rw [htells.1, htells.2.1, htells.2.2]
    exact hidle (History.adds_declined y r hdeclines)
  | @starts r op f hserves hset =>
    have htells : givenBy [.called r op] = none ∧ setBy [.called r op] = none ∧ replacedBy [.called r op] = none := by
      cases op <;> exact ⟨rfl, rfl, rfl⟩
    rw [htells.1, htells.2.1, htells.2.2]
    exact hidle (History.adds_started y r hset)
  | @publishes r g b name source q e hg he =>
    rw [hsink r g hg] at he
    subst he
    cases hasSink with
    | true =>
      exact History.adds_request ⟨.register b name source q, some v.registrations.size, none⟩ none rfl
        (List.append_nil _).symm
    | false =>
      exact History.adds_request ⟨.register b name source q, some v.registrations.size,
        some (.published v.registrations.size)⟩ none rfl (List.append_nil _).symm
  | @replaces r g h q x e hg hx hindexed he =>
    rw [hsink r g hg] at he
    subst he
    cases hasSink with
    | true => exact History.adds_request ⟨.setProperties h q, none, none⟩ (some (h, x.properties)) rfl rfl
    | false => exact History.adds_request ⟨.setProperties h q, none, some (.flag true)⟩ none rfl (List.append_nil _).symm
  | @tells r g h old e hg he =>
    rw [hsink r g hg] at he
    subst he
    -- The client asked for this event.
    cases hasSink with
    | true => exact History.adds_idle ⟨.modified h old, none, none⟩ rfl rfl rfl rfl
    | false => exact History.adds_idle ⟨.modified h old, none, some .done⟩ rfl rfl rfl rfl
  | @withdraws r g b h hg =>
    refine hidle ?_
    unfold leaving
    split <;> exact History.adds_idle ⟨.unregister b h, none, none⟩ rfl rfl rfl rfl
  | @sweeps r g snapshot rest h n hg =>
    refine hidle ?_
    unfold leaving
    split <;> exact .nothing y
  | goesOn hserves hloop => exact hidle (.nothing y)
  | hands hk => exact hidle (.nothing y)
  | @ends f reply hconcludes =>
    unfold said
    split
    · exact hidle (.nothing y)
    · rename_i hpart
      obtain ⟨c, cs, rfl, hserves, -⟩ := hfits.top (Bool.eq_false_iff.mpr hpart)
      exact hidle (History.adds_return hopen (hconcludes c.op c.retired hserves).2)

theorem historyOf_append (os os' : List (Occurrence α)) : historyOf (os ++ os') = (historyOf os).read (news os') := by
  rw [History.read_news]
  exact History.read_append ..

/-- Every move adds what its news tell. -/
theorem history_play {c : Config} (ht : Tallied [(c, hasSink)] w os) (hl : Tracks (logOf os) os w.stack)
    (hplay : w.play m = some out) :
    (historyOf os).Adds (givenBy (news out.2)) (setBy (news out.2)) (if hasSink then replacedBy (news out.2) else none)
      (historyOf (os ++ out.2)) := by
  obtain ⟨v, top, rfl, -, htakes⟩ := takes_of_play hplay
  obtain ⟨p, hturn, -⟩ := htakes.turn
  rw [historyOf_append]
  refine history_turn hturn (History.opened_historyOf os) hl.fits fun r g hg => ?_
  have hsetup := ht.setup r g hg
  cases r with
  | zero => exact (Prod.mk.inj (Option.some.inj hsetup)).2.symm
  | succ r => cases hsetup

/-! ## Versions -/

/-- The registration was published once, it shows the latest of its versions, stamped, and the sink, if there is one,
    was told each version before that, stamped, in order. -/
structure Chronicled (y : History α) (hasSink : Bool) (h : Handle) (x : Registration α) : Prop where
  given : ∃ p, ofHandle y.givens h = [p]
  latest : ∃ p, (y.versions h).getLast? = some p ∧ x.properties = p.stamp x.name x.id
  told : ofHandle y.told h = if hasSink then (y.versions h).dropLast.map (·.stamp x.name x.id) else []

structure Chronicles (w : World α) (y : History α) (hasSink : Bool) : Prop where
  registered : ∀ h x, w.registration? h = some x → Chronicled y hasSink h x
  others : ∀ h, w.registration? h = none →
    ofHandle y.givens h = [] ∧ ofHandle y.sets h = [] ∧ ofHandle y.told h = []

variable {x x' : Registration α} {h t : Handle} {y' : History α}

/-- Nothing is added of the registration. -/
theorem Chronicled.same (hc : Chronicled y hasSink h x) (horigin : x'.origin = x.origin)
    (hproperties : x'.properties = x.properties) (hgivens : ofHandle y'.givens h = ofHandle y.givens h)
    (hsets : ofHandle y'.sets h = ofHandle y.sets h) (htold : ofHandle y'.told h = ofHandle y.told h) :
    Chronicled y' hasSink h x' := by
  have hname : x'.name = x.name := (congrArg Registration.name horigin :)
  have hid : x'.id = x.id := (congrArg Registration.id horigin :)
  have hversions : y'.versions h = y.versions h := by rw [History.versions, History.versions, hgivens, hsets]
  refine ⟨?_, ?_, ?_⟩
  · rw [hgivens]
    exact hc.given
  · rw [hversions, hproperties, hname, hid]
    exact hc.latest
  · rw [htold, hversions, hname, hid]
    exact hc.told

/-- One more version is added. -/
theorem Chronicled.next {p : Properties} (hc : Chronicled y hasSink h x) (horigin : x'.origin = x.origin)
    (hproperties : x'.properties = p.stamp x.name x.id) (hgivens : ofHandle y'.givens h = ofHandle y.givens h)
    (hsets : ofHandle y'.sets h = ofHandle y.sets h ++ [p])
    (htold : ofHandle y'.told h = ofHandle y.told h ++ if hasSink then [x.properties] else []) :
    Chronicled y' hasSink h x' := by
  have hname : x'.name = x.name := (congrArg Registration.name horigin :)
  have hid : x'.id = x.id := (congrArg Registration.id horigin :)
  have hversions : y'.versions h = y.versions h ++ [p] := by
    rw [History.versions, History.versions, hgivens, hsets, List.append_assoc]
  refine ⟨?_, ⟨p, ?_, ?_⟩, ?_⟩
  · rw [hgivens]
    exact hc.given
  · rw [hversions, List.getLast?_concat]
  · rw [hproperties, hname, hid]
  · rw [htold, hc.told, hversions, List.dropLast_concat, hname, hid]
    cases hasSink with
    | false => rfl
    | true =>
      -- The version that the sink is told is what was the latest.
      obtain ⟨q, hlast, hshown⟩ := hc.latest
      obtain ⟨qs, hqs⟩ := List.getLast?_eq_some_iff.mp hlast
      simp [hqs, hshown]

/-- Nothing is published unless the news say so. -/
theorem givenBy_eq_none (hnone : ∀ r h, .published r h ∉ os) : givenBy (news os) = none := by
  have hmem : ∀ r h, .published r h ∉ news os := fun r h hmem => hnone r h ((mem_news rfl).mp hmem)
  unfold givenBy
  split
  · rename_i r h _ heq
    rw [heq] at hmem
    exact absurd (by simp) (hmem r h)
  · rfl

/-- Nothing is set, and nothing replaced, unless they say so. -/
theorem setBy_eq_none (hnone : ∀ r h old, .replaced r h old ∉ os) :
    setBy (news os) = none ∧ replacedBy (news os) = none := by
  have hmem : ∀ r h old, .replaced r h old ∉ news os := fun r h old hmem => hnone r h old ((mem_news rfl).mp hmem)
  constructor
  · unfold setBy
    split
    · rename_i r h old _ heq
      rw [heq] at hmem
      exact absurd (by simp) (hmem r h old)
    · rfl
  · unfold replacedBy
    split
    · rename_i r h old _ heq
      rw [heq] at hmem
      exact absurd (by simp) (hmem r h old)
    · rfl

/-- What is not there after a move was not there before. -/
theorem unregistered_back (hplay : w.play m = some out) (hnone : out.1.registration? h = none) :
    w.registration? h = none := by
  cases hx : w.registration? h with
  | none => rfl
  | some x =>
    obtain ⟨y, hy, -⟩ := origin_play hplay hx
    rw [hnone] at hy
    cases hy

/-- An addition that is not of the registration. -/
theorem ofHandle_adds {es es' : List (Handle × Properties)} {e : Option (Handle × Properties)}
    (hadds : es' = es ++ e.toList) (hother : ∀ t p, e = some (t, p) → t ≠ h) : ofHandle es' h = ofHandle es h := by
  rw [hadds, ofHandle_append]
  cases e with
  | none => exact List.append_nil _
  | some e => rw [Option.toList_some, ofHandle_singleton, if_neg (hother e.1 e.2 rfl), List.append_nil]

/-- A move that alters one registration at most, and adds to the history of that one only. -/
theorem Chronicles.change (hw : Chronicles w y hasSink) {given set old : Option (Handle × Properties)}
    (hadds : y.Adds given set old y') (hplay : w.play m = some out) (P : Handle → Prop)
    (hone : ∀ h, P h → ∃ x, out.1.registration? h = some x ∧ Chronicled y' hasSink h x)
    (hsame : ∀ h, ¬ P h → out.1.properties? h = w.properties? h) (hgiven : ∀ t p, given = some (t, p) → P t)
    (hset : ∀ t p, set = some (t, p) → P t) (hold : ∀ t p, old = some (t, p) → P t) :
    Chronicles out.1 y' hasSink := by
  have hother : ∀ h, ¬ P h → ∀ e : Option (Handle × Properties), (∀ t p, e = some (t, p) → P t) →
      ∀ t p, e = some (t, p) → t ≠ h := by
    rintro h hh e he t p heq rfl
    exact hh (he t p heq)
  constructor
  · intro h x' hx'
    by_cases hh : P h
    · obtain ⟨x, hx, hc⟩ := hone h hh
      obtain rfl := Option.some.inj (hx.symm.trans hx')
      exact hc
    · obtain ⟨x, hx, horigin, hproperties⟩ := registered_back hplay (hsame h hh) hx'
      exact (hw.registered h x hx).same horigin hproperties (ofHandle_adds hadds.givens (hother h hh _ hgiven))
        (ofHandle_adds hadds.sets (hother h hh _ hset)) (ofHandle_adds hadds.told (hother h hh _ hold))
  · intro h hnone
    have hh : ¬ P h := by
      intro hh
      obtain ⟨x, hx, -⟩ := hone h hh
      rw [hnone] at hx
      cases hx
    rw [ofHandle_adds hadds.givens (hother h hh _ hgiven), ofHandle_adds hadds.sets (hother h hh _ hset),
      ofHandle_adds hadds.told (hother h hh _ hold)]
    exact hw.others h (unregistered_back hplay hnone)

/-- A registration is published with its first version. -/
theorem chronicles_published {r : Nat} {g : Registry α} {b : BundleId} {name : String} {source : Source α}
    {q : Option Properties} (hw : Chronicles w y hasSink) (hplay : w.play m = some out)
    (hset : out.1.registrations = w.registrations.push (newcomer r g b name source q))
    (hadds : y.Adds (some (w.registrations.size, q.getD .empty)) none none y') : Chronicles out.1 y' hasSink := by
  obtain ⟨hgivens, hsets, htold⟩ := hw.others w.registrations.size (by simp [registration?])
  refine hw.change hadds hplay (· = w.registrations.size) ?_ ?_ (by simp +contextual) (by simp) (by simp)
  · rintro h rfl
    have hgivens' : ofHandle y'.givens w.registrations.size = [q.getD .empty] := by
      rw [hadds.givens, ofHandle_append, hgivens, Option.toList_some, ofHandle_singleton, if_pos rfl, List.nil_append]
    have hversions : y'.versions w.registrations.size = [q.getD .empty] := by
      rw [History.versions, hgivens', ofHandle_adds hadds.sets (by simp), hsets, List.append_nil]
    refine ⟨newcomer r g b name source q, ?_, ⟨_, hgivens'⟩, ⟨_, congrArg List.getLast? hversions, rfl⟩, ?_⟩
    · rw [registration?, hset, Array.getElem?_push_size]
    · rw [ofHandle_adds hadds.told (by simp), htold, hversions]
      exact (ite_self _).symm
  · intro h hh
    simp [properties?, registration?, hset, Array.getElem?_push, hh]

/-- A registration's properties are replaced by the next version. -/
theorem chronicles_replaced {q : Properties} (hw : Chronicles w y hasSink) (hplay : w.play m = some out)
    (hx : w.registration? t = some x)
    (hset : ∀ h, out.1.properties? h = if h = t then some (q.stamp x.name x.id) else w.properties? h)
    (hadds : y.Adds none (some (t, q)) (if hasSink then some (t, x.properties) else none) y') :
    Chronicles out.1 y' hasSink := by
  refine hw.change hadds hplay (· = t) ?_ ?_ (by simp) (by simp +contextual) (by cases hasSink <;> simp +contextual)
  · rintro h rfl
    obtain ⟨x', hx', horigin⟩ := origin_play hplay hx
    have hshown := hset h
    rw [if_pos rfl, properties?, hx', Option.map_some, Option.some.injEq] at hshown
    refine ⟨x', hx', (hw.registered h x hx).next horigin hshown (ofHandle_adds hadds.givens (by simp)) ?_ ?_⟩
    · rw [hadds.sets, ofHandle_append, Option.toList_some, ofHandle_singleton, if_pos rfl]
    · rw [hadds.told, ofHandle_append]
      cases hasSink with
      | true => rw [if_pos rfl, if_pos rfl, Option.toList_some, ofHandle_singleton, if_pos rfl]
      | false => rfl
  · intro h hh
    rw [hset h, if_neg hh]

/-- Every move keeps the chronicle. -/
theorem chronicles_play {c : Config} (ht : Tallied [(c, hasSink)] w os) (hl : Tracks (logOf os) os w.stack)
    (hw : Chronicles w (historyOf os) hasSink) (hplay : w.play m = some out) :
    Chronicles out.1 (historyOf (os ++ out.2)) hasSink := by
  have hadds := history_play ht hl hplay
  cases alters_of_play hplay with
  | nothing hsame hpublished hreplaced =>
    rw [givenBy_eq_none hpublished, (setBy_eq_none hreplaced).1, (setBy_eq_none hreplaced).2, ite_self] at hadds
    exact hw.change hadds hplay (fun _ => False) (by simp) (fun h _ => hsame h) (by simp) (by simp) (by simp)
  | @publishes r g b name source q hsaid hset =>
    obtain ⟨rest, hsaid⟩ := hsaid
    have hnews : news out.2 = .called r (.register b name source q) :: .published r w.registrations.size :: news rest := by
      rw [hsaid]
      rfl
    rw [hnews] at hadds
    have hadds' : (historyOf os).Adds (some (w.registrations.size, q.getD .empty)) none (if hasSink then none else none) _ := hadds
    rw [ite_self] at hadds'
    exact chronicles_published hw hplay hset hadds'
  | @replaces r t q x hx hsaid hset =>
    obtain ⟨rest, hsaid⟩ := hsaid
    have hnews : news out.2 = .called r (.setProperties t q) :: .replaced r t x.properties :: news rest := by
      rw [hsaid]
      rfl
    rw [hnews] at hadds
    exact chronicles_replaced hw hplay hx hset hadds

/-- In every reachable world of one registry all registrations are chronicled. -/
theorem chronicles_run {c : Config} {ms : List (Move α)} (hrun : (start [(c, hasSink)]).run ms = some out) :
    Chronicles out.1 (historyOf out.2) hasSink := by
  have hall := run_induction (P := fun w os => Tallied [(c, hasSink)] w os ∧ Tracks (logOf os) os w.stack ∧
    Chronicles w (historyOf os) hasSink) ?_ ms _ [] out ?_ hrun
  · exact hall.2.2
  · intro w os m out hw hplay
    obtain ⟨ht, hl, hw⟩ := hw
    exact ⟨tallied_play ht hplay, tracks_play hl hplay, chronicles_play ht hl hw hplay⟩
  · refine ⟨tallied_start _, tracks_start _, fun h x hx => ?_, fun h _ => ⟨rfl, rfl, rfl⟩⟩
    cases hx

/-- What a history has does not change as it goes on. -/
theorem history_extends {c : Config} {before ms : List (Move α)} (hbefore : (start [(c, hasSink)]).run before = some (w, os))
    (hrun : w.run ms = some out) : (historyOf os).givens <+: (historyOf (os ++ out.2)).givens ∧
      (historyOf os).sets <+: (historyOf (os ++ out.2)).sets ∧ (historyOf os).told <+: (historyOf (os ++ out.2)).told := by
  have hall := run_induction (P := fun w os' => Tallied [(c, hasSink)] w os' ∧ Tracks (logOf os') os' w.stack ∧
    (historyOf os).givens <+: (historyOf os').givens ∧ (historyOf os).sets <+: (historyOf os').sets ∧
      (historyOf os).told <+: (historyOf os').told) ?_ ms w os out ?_ hrun
  · exact hall.2.2
  · intro w os' m out hw hplay
    obtain ⟨ht, hl, hgivens, hsets, htold⟩ := hw
    have hadds := history_play ht hl hplay
    refine ⟨tallied_play ht hplay, tracks_play hl hplay, ?_, ?_, ?_⟩
    · rw [hadds.givens]
      exact hgivens.trans (List.prefix_append ..)
    · rw [hadds.sets]
      exact hsets.trans (List.prefix_append ..)
    · rw [hadds.told]
      exact htold.trans (List.prefix_append ..)
  · exact ⟨tallied_run hbefore, tracks_run hbefore, List.prefix_refl _, List.prefix_refl _, List.prefix_refl _⟩

theorem ofHandle_extends {es es' : List (Handle × Properties)} (hes : es <+: es') (h : Handle) :
    ofHandle es h <+: ofHandle es' h := by
  obtain ⟨rest, rfl⟩ := hes
  rw [ofHandle_append]
  exact List.prefix_append ..

/-- The versions of a registration only get more. -/
theorem Chronicled.versions_grow (hc : Chronicled y hasSink h x) (hc' : Chronicled y' hasSink h x')
    (hgivens : y.givens <+: y'.givens) (hsets : y.sets <+: y'.sets) : y.versions h <+: y'.versions h := by
  obtain ⟨p, hp⟩ := hc.given
  obtain ⟨p', hp'⟩ := hc'.given
  have hgiven : ofHandle y.givens h = ofHandle y'.givens h :=
    (ofHandle_extends hgivens h).eq_of_length (by rw [hp, hp', List.length_singleton, List.length_singleton])
  rw [History.versions, History.versions, hgiven]
  exact (List.prefix_append_right_inj _).mpr (ofHandle_extends hsets h)

/-- At rest no call has still to return. -/
theorem opened_at_rest {setups : List (Config × Bool)} {ms : List (Move α)} (hrun : (start setups).run ms = some out)
    (hrest : out.1.stack = []) : (historyOf out.2).opened = [] := by
  have hfits := (tracks_run hrun).fits
  rw [hrest] at hfits
  rw [History.opened_historyOf]
  cases hp : (logOf out.2).pending with
  | nil => rfl
  | cons c cs =>
    rw [hp] at hfits
    cases hfits

/-- At every moment of every run of one registry, in every phase, a registration shows its latest version under its own
    name and id, the sink was told each version before that once and in order, and nothing of this changes later
    but for what comes after it. -/
theorem properties_history {c : Config} {before : List (Move α)} (hbefore : (start [(c, hasSink)]).run before = some (w, os))
    (hx : w.registration? h = some x) :
    Chronicled (historyOf os) hasSink h x ∧
      (∃ p, ((historyOf os).versions h).getLast? = some p ∧ ∀ key, x.properties.get? key =
        if key = Properties.nameKey then some x.name else if key = Properties.idKey then some (toString x.id) else p.get? key) ∧
      (w.stack = [] → (historyOf os).opened = []) ∧
      ∀ ms out, w.run ms = some out → (historyOf os).versions h <+: (historyOf (os ++ out.2)).versions h ∧
        ofHandle (historyOf os).told h <+: ofHandle (historyOf (os ++ out.2)).told h := by
  have hc := (chronicles_run hbefore).registered h x hx
  refine ⟨hc, ?_, opened_at_rest hbefore, fun ms out hrun => ?_⟩
  · obtain ⟨p, hlast, hshown⟩ := hc.latest
    refine ⟨p, hlast, fun key => ?_⟩
    rw [hshown]
    exact Properties.get?_stamp ..
  · obtain ⟨hgivens, hsets, htold⟩ := history_extends hbefore hrun
    have hafter : (start [(c, hasSink)]).run (before ++ ms) = some (out.1, os ++ out.2) := run_trans hbefore hrun
    obtain ⟨x', hx', -⟩ := origin_run hrun hx
    have hlater := (chronicles_run hafter).registered h x' hx'
    exact ⟨hc.versions_grow hlater hgivens hsets, ofHandle_extends htold h⟩

/-- A service is published under keys that are not its own. While the sink is told that its properties were replaced, they
    are replaced again, and while it is withdrawn they are not. -/
def replacesNested : List (Move Nat) :=
  [.call 0 (.register 7 "a" (.object 1) (some (.ofList [("objectClass", "b"), ("color", "red")]))), .answer .done,
   .call 0 (.setProperties 0 (.ofList [("service.id", "9")])), .call 0 (.setProperties 0 (.ofList [("color", "blue")])),
   .answer .done, .answer .done, .call 0 (.unregister 7 0), .call 0 (.setProperties 0 (.ofList [("color", "green")]))]

theorem properties_history_replacesNested : ∃ w os x, (start [(Config.standard, true)]).run replacesNested = some (w, os) ∧
    w.registration? 0 = some x ∧ x.phase = .unregistering ∧
    x.properties = .ofList [("color", "blue"), ("objectClass", "a"), ("service.id", "1")] ∧
    ofHandle (historyOf os).told 0 = [.ofList [("color", "red"), ("objectClass", "a"), ("service.id", "1")],
      .ofList [("objectClass", "a"), ("service.id", "1")]] := by
  have hany : ((start [(Config.standard, true)]).run replacesNested).any (fun before => (before.1.registration? 0).any fun x =>
      x.phase == .unregistering && x.name == "a" && x.id == 1 && (historyOf before.2).versions 0 ==
        [.ofList [("objectClass", "b"), ("color", "red")], .ofList [("service.id", "9")], .ofList [("color", "blue")]]) = true := by
    decide +kernel
  obtain ⟨⟨w, os⟩, hbefore, hany⟩ := (Option.any_eq_true _ _).mp hany
  obtain ⟨x, hx, hall⟩ := (Option.any_eq_true _ _).mp hany
  simp only [Bool.and_eq_true, beq_iff_eq] at hall
  obtain ⟨⟨⟨hphase, hname⟩, hid⟩, hversions⟩ := hall
  obtain ⟨hc, -⟩ := properties_history hbefore hx
  refine ⟨w, os, x, hbefore, hx, hphase, ?_, ?_⟩
  · obtain ⟨p, hlast, hshown⟩ := hc.latest
    rw [hversions] at hlast
    obtain rfl := Option.some.inj hlast
    rw [hshown, hname, hid]
    decide +kernel
  · rw [hc.told, hversions, hname, hid]
    decide +kernel

end World

end Switchboard
