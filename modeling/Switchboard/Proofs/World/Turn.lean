/-
  Switchboard.Proofs.World.Turn — the calls that moves belong to.

  `Step` tells what a move does to phases, uses and objects. This module tells what it does to the
  calls: which of them it starts, goes on with or ends, and which events it delivers (`Turn`). Of
  what happens, only calls and returns, events, and what comes, changes or goes is looked at
  (`news`).

  A call is served by one frame after the other, and the last of them says what the call returns
  (`Serves`, `Reports`). Those of a withdrawal remember what was withdrawn: so a call that
  withdrew a registration says so, and one that does not has withdrawn none.

  Every move is both, a step and a turn on the same world (`takes_of_play`).
-/

import Switchboard.Proofs.World.Call

namespace Switchboard

variable {α : Type}

/-! ## The news -/

def Occurrence.isNews : Occurrence α → Bool
  | called .. | returned _ | published .. | replaced .. | retired .. | asked (.event ..) => true
  | _ => false

def Occurrence.isPublished : Occurrence α → Bool
  | published .. => true
  | _ => false

def news (os : List (Occurrence α)) : List (Occurrence α) := os.filter Occurrence.isNews

theorem news_append (os os' : List (Occurrence α)) : news (os ++ os') = news os ++ news os' := List.filter_append ..

theorem mem_news {o : Occurrence α} {os : List (Occurrence α)} (ho : o.isNews = true) : o ∈ news os ↔ o ∈ os := by
  rw [news, List.mem_filter, and_iff_left ho]

/-! ## Calls and the frames that serve them -/

def Operation.withdraws : Operation α → Bool
  | unregister .. | unregisterAll _ => true
  | _ => false

/-- A call of the operation that has withdrawn these is served by the frame. -/
inductive Serves : Operation α → List Handle → Frame α → Prop
  | announcing {b : BundleId} {name : String} {source : Source α} {p : Option Properties} {r : Nat} {h : Handle} :
      Serves (.register b name source p) [] (.announcing r h)
  | setting {h : Handle} {p old : Properties} {r : Nat} :
      Serves (.setProperties h p) [] (.reporting r h old (.flag true))
  | telling {h : Handle} {old : Properties} {r : Nat} : Serves (.modified h old) [] (.reporting r h old .done)
  | withdrawing {b : BundleId} {h : Handle} {r : Nat} : Serves (.unregister b h) [h] (.withdrawing r h)
  | draining {b : BundleId} {h : Handle} {r : Nat} : Serves (.unregister b h) [h] (.draining r h)
  | withdrawn {b : BundleId} {h : Handle} {r : Nat} {due : List (BundleId × α)} :
      Serves (.unregister b h) [h] (.releasing r h due .withdrawn)
  | filtering {name : Option String} {filtered : Bool} {r : Nat} {h : Handle} {p : Properties}
      {rest : List (Handle × Properties)} {found : List Reference} :
      Serves (.find name filtered) [] (.filtering r h p rest found)
  | resolving {b : BundleId} {ref : Reference} {r : Nat} {h : Handle} : Serves (.get b ref) [] (.resolving r h b ref)
  | settling {b : BundleId} {ref : Reference} {r : Nat} {h : Handle} {fresh : Bool} {o : Option α} :
      Serves (.get b ref) [] (.settling r h b ref fresh o)
  | got {b : BundleId} {ref : Reference} {r : Nat} {h : Handle} {due : List (BundleId × α)} {o : Option α} :
      Serves (.get b ref) [] (.releasing r h due (.got b ref o))
  | ungot {b : BundleId} {ref : Reference} {r : Nat} {h : Handle} {due : List (BundleId × α)} :
      Serves (.unget b ref) [] (.releasing r h due .ungot)
  | ungetting {b : BundleId} {r : Nat} {rest : List Reference} : Serves (.ungetAll b) [] (.ungetting r b rest)
  | sweeping {b : BundleId} {hs : List Handle} {r : Nat} {snapshot rest : List Handle} :
      Serves (.unregisterAll b) hs (.unregistering r snapshot rest hs.length)

inductive Reports : Operation α → List Handle → Reply α → Prop
  | withdrew {b : BundleId} {h : Handle} : Reports (.unregister b h) [h] (.flag true)
  | kept {b : BundleId} {h : Handle} {reply : Reply α} (hreply : reply ≠ .flag true) : Reports (.unregister b h) [] reply
  | swept {b : BundleId} {hs : List Handle} : Reports (.unregisterAll b) hs (.count hs.length)
  | other {op : Operation α} {reply : Reply α} (hop : op.withdraws = false) : Reports op [] reply

/-- A frame that ends with this reply says what its call has done: also that it has set properties. -/
def Concludes (f : Frame α) (reply : Reply α) : Prop :=
  ∀ op hs, Serves op hs f → Reports op hs reply ∧ ∀ h p, op = .setProperties h p → reply = .flag true

def Declines (op : Operation α) (reply : Reply α) : Prop :=
  Reports op [] reply ∧ ∀ h p, op = .setProperties h p → reply ≠ .flag true

theorem declines_of_not {op : Operation α} (hop : op.withdraws = false) (hset : ∀ h p, op ≠ .setProperties h p)
    (reply : Reply α) : Declines op reply :=
  ⟨.other hop, fun h p heq => absurd heq (hset h p)⟩

namespace World

variable {w v : World α} {g : Registry α} {top : Option (Frame α)} {out : Outcome α} {f f' : Frame α}
  {p : List (Frame α)} {r : Nat} {op : Operation α} {h : Handle} {m : Move α} {reply : Reply α} {os : List (Occurrence α)}

/-! ## Turns -/

def announced (hasSink : Bool) (f : Frame α) (reply : Reply α) : List (Occurrence α) × List (Frame α) :=
  if hasSink then (f.asks, [f]) else ([.returned reply], [])

def leaving (g : Registry α) (r : Nat) (h : Handle) : Frame α := if g.hasSink then .withdrawing r h else .draining r h

def said (fs : List (Frame α)) (reply : Reply α) : List (Occurrence α) :=
  if fs.head?.any Frame.isLoop then [] else [.returned reply]

/-- The news of a move on the world `v` below the innermost operation, and what it puts on top. -/
inductive Turn (v : World α) : Option (Frame α) → List (Occurrence α) → List (Frame α) → Prop
  | holds : Turn v none [] []
  | declines {r : Nat} {op : Operation α} {reply : Reply α} (hdeclines : Declines op reply) :
      Turn v none [.called r op, .returned reply] []
  | starts {r : Nat} {op : Operation α} {f : Frame α} (hserves : Serves op [] f)
      (hset : ∀ h p, op ≠ .setProperties h p) : Turn v none [.called r op] [f]
  | publishes {r : Nat} {g : Registry α} {b : BundleId} {name : String} {source : Source α} {p : Option Properties}
      {e : List (Occurrence α) × List (Frame α)} (hg : v.registries[r]? = some g)
      (he : e = announced g.hasSink (.announcing r v.registrations.size) (.published v.registrations.size)) :
      Turn v none (.called r (.register b name source p) :: .published r v.registrations.size :: e.1) e.2
  | replaces {r : Nat} {g : Registry α} {h : Handle} {p : Properties} {x : Registration α}
      {e : List (Occurrence α) × List (Frame α)} (hg : v.registries[r]? = some g) (hx : v.registration? h = some x)
      (hindexed : g.isIndexed x.bundle h = true)
      (he : e = announced g.hasSink (.reporting r h x.properties (.flag true)) (.flag true)) :
      Turn v none (.called r (.setProperties h p) :: .replaced r h x.properties :: e.1) e.2
  | tells {r : Nat} {g : Registry α} {h : Handle} {old : Properties} {e : List (Occurrence α) × List (Frame α)}
      (hg : v.registries[r]? = some g) (he : e = announced g.hasSink (.reporting r h old .done) .done) :
      Turn v none (.called r (.modified h old) :: e.1) e.2
  | withdraws {r : Nat} {g : Registry α} {b : BundleId} {h : Handle} (hg : v.registries[r]? = some g) :
      Turn v none (.called r (.unregister b h) :: .retired r h :: (leaving g r h).asks) [leaving g r h]
  | sweeps {r : Nat} {g : Registry α} {snapshot rest : List Handle} {h : Handle} {n : Nat}
      (hg : v.registries[r]? = some g) :
      Turn v (some (.unregistering r snapshot (h :: rest) n)) (.retired r h :: (leaving g r h).asks)
        [leaving g r h, .unregistering r snapshot rest (n + 1)]
  | goesOn {f f' : Frame α} (hserves : ∀ op hs, Serves op hs f → Serves op hs f') (hloop : f'.isLoop = f.isLoop) :
      Turn v (some f) [] [f']
  | hands {r : Nat} {b : BundleId} {rest rest' : List Reference} {k : Frame α} (hk : k.isLoop = false) :
      Turn v (some (.ungetting r b rest)) [] [k, .ungetting r b rest']
  | ends {f : Frame α} {reply : Reply α} (hconcludes : Concludes f reply) : Turn v (some f) (said v.stack reply) []

/-! ## Every move is a turn -/

theorem said_finish (w : World α) (reply : Reply α) : (w.finish reply).2 = said w.stack reply := by
  unfold finish said
  split <;> rfl

theorem news_said (fs : List (Frame α)) (reply : Reply α) : news (said fs reply) = said fs reply := by
  unfold said
  split <;> rfl

theorem said_of_turn (hturn : w.isClientsTurn = true) (reply : Reply α) : said w.stack reply = [.returned reply] := by
  rw [said, not_loop_of_turn hturn]
  rfl

theorem news_mint (w : World α) (r : Nat) (h : Handle) : news (w.mint r h).2.2 = [] := by
  unfold mint
  split <;> rfl

theorem news_mintAll (w : World α) (r : Nat) (hs : List Handle) : news (w.mintAll r hs).2.2 = [] := by
  induction hs generalizing w with
  | nil => rfl
  | cons h hs ih =>
    show news ((w.mint r h).2.2 ++ _) = []
    rw [news_append, news_mint, List.nil_append]
    exact ih _

def TurnOf (w : World α) (r : Nat) (op : Operation α) (out : Outcome α) : Prop :=
  ∃ p, Turn w none (.called r op :: news out.2) p ∧ out.1.stack = p ++ w.stack

/-- A call is answered. -/
theorem turnOf_finish {w' : World α} (os : List (Occurrence α)) (hs : w'.stack = w.stack)
    (hturn : w.isClientsTurn = true)
    (hdeclines : Declines op reply) (hos : news os = []) :
    TurnOf w r op (after os (w'.finish reply)) := by
  refine ⟨[], ?_, (stack_finish w' reply).trans hs⟩
  rw [after, news_append, hos, said_finish, news_said, hs, said_of_turn hturn]
  exact .declines hdeclines

/-- An operation is in flight. -/
theorem turnOf_place {w' : World α} (os : List (Occurrence α)) (hs : w'.stack = w.stack) (hserves : Serves op [] f)
    (hset : ∀ h p, op ≠ .setProperties h p) (hf : news f.asks = []) (hos : news os = []) :
    TurnOf w r op (after os (w'.place f)) := by
  refine ⟨[f], ?_, congrArg (f :: ·) hs⟩
  show Turn w none (.called r op :: news (os ++ f.asks)) [f]
  rw [news_append, hos, hf]
  exact .starts hserves hset

/-- The sink is told, or there is none. -/
theorem announced_spec (w' : World α) (hs : w'.stack = w.stack) (hturn : w.isClientsTurn = true) (hasSink : Bool)
    (hf : news f.asks = f.asks) (reply : Reply α) :
    news (if hasSink then w'.place f else w'.finish reply).2 = (announced hasSink f reply).1 ∧
      (if hasSink then w'.place f else w'.finish reply).1.stack = (announced hasSink f reply).2 ++ w.stack := by
  cases hasSink with
  | true => exact ⟨hf, congrArg (f :: ·) hs⟩
  | false =>
    refine ⟨?_, (stack_finish w' reply).trans hs⟩
    show news (w'.finish reply).2 = [.returned reply]
    rw [said_finish, news_said, hs, said_of_turn hturn]

theorem news_leaving (g : Registry α) (r : Nat) (h : Handle) : news (leaving g r h).asks = (leaving g r h).asks := by
  unfold leaving
  split <;> rfl

/-! ### Calls -/

theorem turnOf_register (hturn : w.isClientsTurn = true) (hg : w.registries[r]? = some g) (b : BundleId) (name : String)
    (source : Source α) (p : Option Properties) :
    TurnOf w r (.register b name source p) (w.register r g b name source p) := by
  unfold register
  split
  · exact turnOf_finish [] rfl hturn (declines_of_not rfl (by simp) _) rfl
  · obtain ⟨hnews, hstack⟩ := announced_spec (w := w)
      (w.enlisted r g (newcomer r g b name source p)) rfl hturn g.hasSink
      (f := .announcing r w.registrations.size) rfl (.published w.registrations.size)
    have hpublishes : Turn w none (.called r (.register b name source p) :: .published r w.registrations.size :: _) _ :=
      .publishes hg rfl
    rw [← hnews] at hpublishes
    exact ⟨_, hpublishes, hstack⟩

theorem turnOf_unregister (hturn : w.isClientsTurn = true) (hg : w.registries[r]? = some g) (b : BundleId) (h : Handle) :
    TurnOf w r (.unregister b h) (w.unregister r g b h) := by
  have hkept : ∀ {reply : Reply α}, reply ≠ .flag true → Declines (.unregister b h) reply :=
    fun hreply => ⟨.kept hreply, fun _ _ heq => by cases heq⟩
  unfold unregister
  split
  · exact turnOf_finish [] rfl hturn (hkept (by simp)) rfl
  · split
    · unfold withdraw
      split
      · rename_i w' hw
        obtain ⟨x, -, -, -, rfl⟩ := retire?_eq_some hw
        refine ⟨[leaving g r h], ?_, rfl⟩
        show Turn w none (_ :: .retired r h :: news (leaving g r h).asks) _
        rw [news_leaving]
        exact .withdraws hg
      · exact turnOf_finish _ rfl hturn (hkept (by simp)) rfl
    · exact turnOf_finish [] rfl hturn (hkept (by simp)) rfl

theorem turnOf_returnAll (hturn : w.isClientsTurn = true) (hdeclines : ∀ refs, Declines op (.references refs))
    (hs : List Handle) : TurnOf w r op (w.returnAll r hs) :=
  turnOf_finish _ (mintAll_idle r hs w).2.1 hturn (hdeclines _) (news_mintAll w r hs)

theorem turnOf_find (hturn : w.isClientsTurn = true) (name : Option String) (filtered : Bool) :
    TurnOf w r (.find name filtered) (w.find r g name filtered) := by
  have hdeclines : ∀ reply : Reply α, Declines (.find name filtered) reply := declines_of_not rfl (by simp)
  unfold find
  dsimp only
  split
  · unfold filterNext
    split
    · exact turnOf_finish [] rfl hturn (hdeclines _) rfl
    · exact turnOf_place [] rfl .filtering (by simp) rfl rfl
  · exact turnOf_returnAll hturn (fun _ => hdeclines _) _

theorem turnOf_findOne (hturn : w.isClientsTurn = true) (name : String) :
    TurnOf w r (.findOne name) (w.findOne r g name) := by
  unfold findOne
  split
  · exact turnOf_finish [] rfl hturn (declines_of_not rfl (by simp) _) rfl
  · rename_i h _
    exact turnOf_finish _ (stack_mint w r h) hturn (declines_of_not rfl (by simp) _) (news_mint w r h)

theorem turnOf_get (hturn : w.isClientsTurn = true) (b : BundleId) (ref : Reference) :
    TurnOf w r (.get b ref) (w.get r g b ref) := by
  cases hx : w.behind? ref with
  | none =>
    rw [get_of_invalid w r g b hx]
    exact turnOf_finish [] rfl hturn (declines_of_not rfl (by simp) _) rfl
  | some x =>
    rw [get_of_valid w r g b hx]
    unfold fetch
    split
    · exact turnOf_place _ rfl .settling (by simp) rfl rfl
    · exact turnOf_place _ rfl .settling (by simp) rfl rfl
    · exact turnOf_place _ rfl .resolving (by simp) rfl rfl

/-- Objects on their way back are no news. -/
theorem news_releasing (r : Nat) (h : Handle) (due : List (BundleId × α)) (e : Ending α) :
    news (Frame.releasing r h due e).asks = [] := by
  cases due <;> rfl

theorem turnOf_unget (hturn : w.isClientsTurn = true) (b : BundleId) (ref : Reference) :
    TurnOf w r (.unget b ref) (w.unget r g b ref) := by
  have hdeclines : ∀ reply : Reply α, Declines (.unget b ref) reply := declines_of_not rfl (by simp)
  unfold unget
  rcases ungetOne_cases w r g b ref with hone | ⟨left, ledger, -, hone⟩ | ⟨cached, ledger, -, hone⟩
  · rw [hone]
    exact turnOf_finish _ rfl hturn (hdeclines (.flag false)) rfl
  · rw [hone]
    exact turnOf_finish [_] rfl hturn (hdeclines (.flag true)) rfl
  · rw [hone]
    cases cached.filter fun _ => w.isAlive ref.target && w.isFactory ref.target with
    | none => exact turnOf_finish [_] rfl hturn (hdeclines (.flag true)) rfl
    | some o => exact turnOf_place [_] rfl .ungot (by simp) (news_releasing ..) rfl

theorem turnOf_setProperties (hturn : w.isClientsTurn = true) (hg : w.registries[r]? = some g) (h : Handle)
    (p : Properties) : TurnOf w r (.setProperties h p) (w.setProperties r g h p) := by
  have hunset : Declines (.setProperties h p) (.flag false : Reply α) := ⟨.other rfl, fun _ _ _ => by simp⟩
  unfold setProperties
  split
  · exact turnOf_finish [] rfl hturn hunset rfl
  · rename_i x hx
    split
    · rename_i hindexed
      obtain ⟨hnews, hstack⟩ := announced_spec (w := w)
        (w.updateRegistration h fun x => { x with properties := p.stamp x.name x.id }) rfl hturn g.hasSink
        (f := .reporting r h x.properties (.flag true)) rfl (.flag true)
      have hreplaces : Turn w none _ _ := .replaces (p := p) hg hx hindexed rfl
      rw [← hnews] at hreplaces
      exact ⟨_, hreplaces, hstack⟩
    · exact turnOf_finish [] rfl hturn hunset rfl

theorem turnOf_modified (hturn : w.isClientsTurn = true) (hg : w.registries[r]? = some g) (h : Handle)
    (old : Properties) :
    TurnOf w r (.modified h old) (w.report r g h old .done) := by
  obtain ⟨hnews, hstack⟩ := announced_spec w rfl hturn g.hasSink (f := .reporting r h old .done) rfl .done
  have htells : Turn w none (.called r (.modified h old) :: _) _ := .tells hg rfl
  rw [← hnews] at htells
  exact ⟨_, htells, hstack⟩

theorem turnOf_call (hturn : w.isClientsTurn = true) (hg : w.registries[r]? = some g) (op : Operation α) :
    TurnOf w r op (w.call r g op) := by
  unfold call
  cases op with
  | register b name source p => exact turnOf_register hturn hg b name source p
  | unregister b h => exact turnOf_unregister hturn hg b h
  | unregisterAll b => exact turnOf_place [] rfl .sweeping (by simp) rfl rfl
  | find name filtered => exact turnOf_find hturn name filtered
  | findOne name => exact turnOf_findOne hturn name
  | registered b => exact turnOf_returnAll hturn (fun _ => declines_of_not rfl (by simp) _) _
  | hooks => exact turnOf_returnAll hturn (fun _ => declines_of_not rfl (by simp) _) _
  | inUse b => exact turnOf_finish [] rfl hturn (declines_of_not rfl (by simp) _) rfl
  | users ref => exact turnOf_finish [] rfl hturn (declines_of_not rfl (by simp) _) rfl
  | usage b ref => exact turnOf_finish [] rfl hturn (declines_of_not rfl (by simp) _) rfl
  | count => exact turnOf_finish [] rfl hturn (declines_of_not rfl (by simp) _) rfl
  | get b ref => exact turnOf_get hturn b ref
  | unget b ref => exact turnOf_unget hturn b ref
  | ungetAll b => exact turnOf_place [] rfl .ungetting (by simp) rfl rfl
  | setProperties h p => exact turnOf_setProperties hturn hg h p
  | modified h old => exact turnOf_modified hturn hg h old

/-! ### Moves of the innermost operation -/

def TurnFrom (v : World α) (f : Frame α) (out : Outcome α) : Prop :=
  ∃ p, Turn v (some f) (news out.2) p ∧ out.1.stack = p ++ v.stack

/-- It ends. -/
theorem turnFrom_finish {w' : World α} (os : List (Occurrence α)) (hs : w'.stack = v.stack)
    (hconcludes : Concludes f reply)
    (hos : news os = []) : TurnFrom v f (after os (w'.finish reply)) := by
  refine ⟨[], ?_, (stack_finish w' reply).trans hs⟩
  rw [after, news_append, hos, said_finish, news_said, hs]
  exact .ends hconcludes

/-- It is at another point. -/
theorem turnFrom_place {w' : World α} (os : List (Occurrence α)) (hs : w'.stack = v.stack)
    (hserves : ∀ op hs, Serves op hs f → Serves op hs f')
    (hloop : f'.isLoop = f.isLoop) (hf : news f'.asks = []) (hos : news os = []) :
    TurnFrom v f (after os (w'.place f')) := by
  refine ⟨[f'], ?_, congrArg (f' :: ·) hs⟩
  show Turn v (some f) (news (os ++ f'.asks)) [f']
  rw [news_append, hos, hf]
  exact .goesOn hserves hloop

theorem turnFrom_filterNext {w' : World α} (os : List (Occurrence α)) (hs : w'.stack = v.stack) {t : Handle}
    {p : Properties}
    {rest : List (Handle × Properties)} {found : List Reference} (refs : List Reference)
    (hos : news os = []) : TurnFrom v (.filtering r t p rest found) (after os (w'.filterNext r refs rest)) := by
  unfold filterNext
  split
  · refine turnFrom_finish _ hs (fun op hs hserves => ?_) hos
    cases hserves
    exact ⟨.other rfl, fun _ _ heq => by cases heq⟩
  · refine turnFrom_place _ hs (fun op hs hserves => ?_) rfl rfl hos
    cases hserves
    exact .filtering

theorem turnFrom_resume? {q : Question α} {a : Answer α} (ho : v.resume? f a = some out) :
    TurnFrom v f (after [.answered q a] out) := by
  cases resumes_of ho with
  | announced =>
    refine turnFrom_finish _ rfl (fun op hs hserves => ?_) rfl
    cases hserves
    exact ⟨.other rfl, fun _ _ heq => by cases heq⟩
  | reported =>
    refine turnFrom_finish _ rfl (fun op hs hserves => ?_) rfl
    cases hserves with
    | setting => exact ⟨.other rfl, fun _ _ _ => rfl⟩
    | telling => exact ⟨.other rfl, fun _ _ heq => by cases heq⟩
  | told =>
    refine turnFrom_place _ rfl (fun op hs hserves => ?_) rfl rfl rfl
    cases hserves
    exact .draining
  | rejected => exact turnFrom_filterNext [_] rfl _ rfl
  | accepted r t p rest found =>
    exact turnFrom_filterNext (.answered q _ :: (v.mint r t).2.2) (stack_mint v r t) _ (news_mint v r t)
  | supplied =>
    refine turnFrom_place _ rfl (fun op hs hserves => ?_) rfl rfl rfl
    cases hserves
    exact .settling
  | handed =>
    refine turnFrom_place _ rfl (fun op hs hserves => ?_) rfl (news_releasing ..) rfl
    cases hserves with
    | withdrawn => exact .withdrawn
    | got => exact .got
    | ungot => exact .ungot

theorem turnFrom_conclude (v : World α) (r : Nat) (h : Handle) (e : Ending α) :
    TurnFrom v (.releasing r h [] e) (v.conclude r h e) := by
  unfold conclude
  cases e with
  | withdrawn =>
    refine turnFrom_finish _ rfl (fun op hs hserves => ?_) rfl
    cases hserves
    exact ⟨.withdrew, fun _ _ heq => by cases heq⟩
  | got b ref o =>
    refine turnFrom_finish _ rfl (fun op hs hserves => ?_) rfl
    cases hserves
    exact ⟨.other rfl, fun _ _ heq => by cases heq⟩
  | ungot =>
    refine turnFrom_finish [] rfl (fun op hs hserves => ?_) rfl
    cases hserves
    exact ⟨.other rfl, fun _ _ heq => by cases heq⟩

theorem turnFrom_ungetNext (v : World α) (r : Nat) (g : Registry α) (b : BundleId) (rest : List Reference) :
    TurnFrom v (.ungetting r b rest) (v.ungetNext r g b rest) := by
  have hgoes : ∀ {rest'} op hs, Serves op hs (.ungetting r b rest : Frame α) → Serves op hs (.ungetting r b rest') := by
    rintro rest' op hs ⟨⟩
    exact .ungetting
  unfold ungetNext
  cases rest with
  | nil =>
    refine turnFrom_finish [] rfl (fun op hs hserves => ?_) rfl
    cases hserves
    exact ⟨.other rfl, fun _ _ heq => by cases heq⟩
  | cons ref rest =>
    dsimp only
    rcases ungetOne_cases v r g b ref with hone | ⟨left, ledger, -, hone⟩ | ⟨cached, ledger, -, hone⟩
    · rw [hone]
      exact turnFrom_place [] rfl hgoes rfl rfl rfl
    · rw [hone]
      exact turnFrom_place [_] rfl hgoes rfl rfl rfl
    · rw [hone]
      cases cached.filter fun _ => v.isAlive ref.target && v.isFactory ref.target with
      | none =>
        exact turnFrom_place [_] rfl hgoes rfl rfl rfl
      | some o =>
        refine ⟨[.releasing r ref.target _ .ungot, .ungetting r b (ref :: rest)], ?_, rfl⟩
        show Turn v _ (news ([.flushed r b ref] ++ (Frame.asks (.releasing r ref.target _ .ungot)))) _
        rw [news_append, news_releasing]
        exact .hands rfl

theorem turnFrom_unregisterNext (v : World α) (hg : v.registries[r]? = some g) (snapshot rest : List Handle) (n : Nat) :
    TurnFrom v (.unregistering r snapshot rest n) (v.unregisterNext r g snapshot n rest) := by
  unfold unregisterNext
  split
  · refine turnFrom_finish [] rfl (fun op hs hserves => ?_) rfl
    cases hserves
    exact ⟨.swept, fun _ _ heq => by cases heq⟩
  · rename_i h rest
    split
    · rename_i w' hw
      obtain ⟨x, -, -, -, rfl⟩ := retire?_eq_some hw
      refine ⟨[leaving g r h, .unregistering r snapshot rest (n + 1)], ?_, rfl⟩
      show Turn v _ (.retired r h :: news (leaving g r h).asks) _
      rw [news_leaving]
      exact .sweeps hg
    · refine turnFrom_place _ rfl (fun op hs hserves => ?_) rfl rfl rfl
      cases hserves
      exact .sweeping

theorem turnFrom_goesOn (hgo : GoesOn v f out) : TurnFrom v f out := by
  rcases hgo with ⟨q, a, o, -, ho, rfl⟩ | hout
  · exact turnFrom_resume? ho
  · cases advances_of hout with
    | drains =>
      refine turnFrom_place _ rfl (fun op hs hserves => ?_) rfl (news_releasing ..) rfl
      cases hserves
      exact .withdrawn
    | settles hg h b ref fresh o =>
      refine turnFrom_place _ rfl (fun op hs hserves => ?_) rfl (news_releasing ..) ?_
      · cases hserves
        exact .got
      · cases o <;> rfl
    | concludes r h e => exact turnFrom_conclude v r h e
    | ungets => exact turnFrom_ungetNext ..
    | unregisters hg => exact turnFrom_unregisterNext v hg ..

/-! ### Registrations that come -/

inductive Grows (v : World α) (out : Outcome α) : Prop
  | same (hsize : out.1.registrations.size = v.registrations.size) (hnone : ∀ r h, .published r h ∉ out.2)
  | published {r : Nat} {g : Registry α} {b : BundleId} {name : String} {source : Source α} {p : Option Properties}
      (hg : v.registries[r]? = some g) (hset : out.1.registrations = v.registrations.push (newcomer r g b name source p))
      (hsaid : out.2.filter Occurrence.isPublished = [.published r v.registrations.size])

theorem size_of_alike {w' : World α} (ha : w.Alike w') : w'.registrations.size = w.registrations.size := by
  have hiff : ∀ t, t < w'.registrations.size ↔ t < w.registrations.size := by
    intro t
    have hsome := congrArg Option.isSome (ha.registration t)
    rw [Option.isSome_map, Option.isSome_map, registration?, registration?, Bool.eq_iff_iff] at hsome
    simpa using hsome
  have hle := hiff w.registrations.size
  have hge := hiff w'.registrations.size
  omega

theorem size_finish (w : World α) (reply : Reply α) : (w.finish reply).1.registrations.size = w.registrations.size :=
  size_of_alike (idles_finish w none reply).alike

theorem size_retired {w' : World α} (hw : w.retire? r g h = some w') : w'.registrations.size = w.registrations.size := by
  obtain ⟨x, -, -, -, rfl⟩ := retire?_eq_some hw
  exact Array.size_modify

theorem size_unget (w : World α) (r : Nat) (g : Registry α) (b : BundleId) (ref : Reference) :
    (w.unget r g b ref).1.registrations.size = w.registrations.size := by
  unfold unget
  rcases ungetOne_cases w r g b ref with hone | ⟨left, ledger, -, hone⟩ | ⟨cached, ledger, -, hone⟩
  · rw [hone]
    exact size_finish ..
  · rw [hone]
    exact size_finish (w.setRegistry r { g with ledger := ledger }) _
  · rw [hone]
    cases cached.filter fun _ => w.isAlive ref.target && w.isFactory ref.target with
    | none => exact size_finish (w.setRegistry r { g with ledger := ledger }) _
    | some o => rfl

theorem size_call (w : World α) (r : Nat) (g : Registry α) (hop : ∀ b name source p, op ≠ .register b name source p) :
    (w.call r g op).1.registrations.size = w.registrations.size := by
  unfold call
  cases op with
  | register b name source p => exact absurd rfl (hop b name source p)
  | unregister b h =>
    dsimp only
    unfold unregister
    split
    · exact size_finish ..
    · split
      · unfold withdraw
        split
        · rename_i w' hw
          exact (size_retired hw :)
        · exact size_finish ..
      · exact size_finish ..
  | unregisterAll b => rfl
  | find name filtered => exact size_of_alike (idles_find ..).alike
  | findOne name => exact size_of_alike (idles_findOne ..).alike
  | registered b => exact size_of_alike (idles_returnAll w none ..).alike
  | hooks => exact size_of_alike (idles_returnAll w none ..).alike
  | inUse b => exact size_finish ..
  | users ref => exact size_finish ..
  | usage b ref => exact size_finish ..
  | count => exact size_finish ..
  | get b ref =>
    cases hx : w.behind? ref with
    | none =>
      dsimp only
      rw [get_of_invalid w r g b hx]
      exact size_finish ..
    | some x =>
      dsimp only
      rw [get_of_valid w r g b hx]
      rfl
  | unget b ref => exact size_unget ..
  | ungetAll b => rfl
  | setProperties h p => exact size_of_alike (idles_setProperties ..).alike
  | modified h old => exact size_of_alike (idles_report ..).alike

/-- A turn that is no call of `register` publishes nothing. -/
theorem Turn.not_published {ns : List (Occurrence α)} (ht : Turn v top ns p)
    (hop : ∀ r b name source q, ns.head? ≠ some (.called r (.register b name source q))) :
    ∀ t k, .published t k ∉ ns := by
  have hasks : ∀ f : Frame α, ∀ t k, Occurrence.published t k ∉ f.asks := by
    intro f t k hmem
    obtain ⟨q, -, hq⟩ := List.mem_map.mp hmem
    cases hq
  have hannounced : ∀ (hasSink : Bool) (f : Frame α) (reply : Reply α) t k,
      Occurrence.published t k ∉ (announced hasSink f reply).1 := by
    intro hasSink f reply t k
    cases hasSink with
    | true => exact hasks f t k
    | false => simp [announced]
  intro t k
  cases ht with
  | publishes => exact absurd rfl (hop _ _ _ _ _)
  | holds => simp
  | declines => simp
  | starts => simp
  | replaces hg hx hindexed he => simp [he, hannounced]
  | tells hg he => simp [he, hannounced]
  | withdraws => simp [hasks]
  | sweeps => simp [hasks]
  | goesOn => simp
  | hands => simp
  | @ends f reply =>
    unfold said
    split <;> simp

/-- Only the client calls. -/
theorem Turn.not_called {ns : List (Occurrence α)} (ht : Turn v (some f) ns p) : .called r op ∉ ns := by
  cases ht with
  | @sweeps r g =>
    unfold leaving
    split <;> simp [Frame.asks, Frame.question?]
  | goesOn => simp
  | hands => simp
  | ends =>
    unfold said
    split <;> simp

theorem grows_register (w : World α) (hg : w.registries[r]? = some g) (b : BundleId) (name : String) (source : Source α)
    (p : Option Properties) :
    Grows w (after [.called r (.register b name source p)] (w.register r g b name source p)) := by
  unfold register
  split
  · refine .same (size_finish ..) fun t k => ?_
    simp [after, said_finish, said]
  · dsimp only
    split
    · exact .published (b := b) hg rfl rfl
    · have hset : ∀ (u : World α) (reply : Reply α), (u.finish reply).1.registrations = u.registrations := by
        intro u reply
        unfold finish
        split <;> rfl
      refine .published (b := b) hg (hset _ _) ?_
      simp only [after, said_finish, said]
      split <;> rfl

theorem grows_call (hturn : w.isClientsTurn = true) (hg : w.registries[r]? = some g) (op : Operation α) :
    Grows w (after [.called r op] (w.call r g op)) := by
  by_cases hop : ∃ b name source p, op = .register b name source p
  · obtain ⟨b, name, source, p, rfl⟩ := hop
    exact grows_register w hg b name source p
  · have hop' : ∀ b name source p, op ≠ .register b name source p :=
      fun b name source p heq => hop ⟨b, name, source, p, heq⟩
    obtain ⟨p, ht, -⟩ := turnOf_call hturn hg op
    refine .same (size_call w r g hop') fun t k hmem => ht.not_published (fun r b name source q => ?_) t k ?_
    · simp only [List.head?_cons, ne_eq, Option.some.injEq, Occurrence.called.injEq, not_and]
      exact fun _ => hop' b name source q
    · rcases List.mem_cons.mp hmem with heq | hmem
      · cases heq
      · exact List.mem_cons_of_mem _ ((mem_news rfl).mpr hmem)

theorem grows_goesOn (hgo : GoesOn v f out) : Grows v out := by
  have hsize : out.1.registrations.size = v.registrations.size := by
    cases hgo.step with
    | idle htop hi => exact size_of_alike hi.alike
    | retire => exact Array.size_modify
    | drain => exact Array.size_modify
    | _ => rfl
  obtain ⟨p, ht, -⟩ := turnFrom_goesOn hgo
  refine .same hsize fun t k hmem => ht.not_published (fun r b name source q heq => ?_) t k ((mem_news rfl).mpr hmem)
  exact ht.not_called (List.mem_of_mem_head? heq)

/-! ### All of it -/

/-- A move on the world `v` below the innermost operation `top`: the step, the turn, and whether
    something was published. -/
structure Takes (v : World α) (top : Option (Frame α)) (out : Outcome α) : Prop where
  step : Step v top out
  turn : ∃ p, Turn v top (news out.2) p ∧ out.1.stack = p ++ v.stack
  grows : Grows v out

theorem takes_of_play (hplay : w.play m = some out) :
    ∃ v top, w = v.onto top ∧ (top = none → w.isClientsTurn = true) ∧ Takes v top out := by
  cases moves_of_play hplay with
  | holds hturn held hout =>
    subst hout
    refine ⟨w, none, rfl, fun _ => hturn, ?_, ⟨[], .holds, rfl⟩, .same rfl (by simp)⟩
    exact .idle (by simp) ⟨.of_eq rfl rfl, ⟨none, rfl, by simp⟩, rfl⟩
  | @calls r op g hturn hop hg hout =>
    subst hout
    exact ⟨w, none, rfl, fun _ => hturn, (step_call w hg hop).after rfl, turnOf_call hturn hg op, grows_call hturn hg op⟩
  | @goesOn f fs hstack hgo =>
    exact ⟨_, some f, eq_onto hstack, fun h => (by cases h), hgo.step, turnFrom_goesOn hgo, grows_goesOn hgo⟩

end World

end Switchboard
