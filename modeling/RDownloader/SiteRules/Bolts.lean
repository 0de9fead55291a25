import RDownloader.SiteRules.Executor

/-!
# What a rule may reach

Every request of a run passes `issue`, so the bounds are shown there once, of the record of what was
asked; each program over it then only has to keep them.
-/

namespace RDownloader

namespace SiteRules

variable {Url : Type}

/-- An address that a rule may reach. -/
def Reachable (web : Web Url) (rule : Rule) (originHost : String) (url : Url) : Prop :=
  (web.scheme url = "http" ∨ web.scheme url = "https") ∧
    ∃ host, web.hostStr url = some host ∧
      (host = originHost ∨ ∃ pattern ∈ rule.matched.hosts, hostMatches pattern host = true)

/-- The addresses that travel with a request: public ones, resolved for its host just before; none
when its host is a public address itself. -/
inductive Pinned (web : Web Url) (url : Url) (before : List (PortEvent Url)) : List IpAddr → Prop
  | literal {address : IpAddr} (literal : web.literalAddress url = some address)
      (isPublic : address.isPublic = true) : Pinned web url before []
  | resolved {host : String} {addresses : List IpAddr} (name : web.literalAddress url = none)
      (named : web.hostStr url = some host)
      (just : before.head? = some (.resolved host (.ok addresses))) (some : addresses ≠ [])
      (allPublic : ∀ address ∈ addresses, address.isPublic = true) :
      Pinned web url before addresses

/-- The requests on record. -/
def requests (trace : List (PortEvent Url)) : List (FetchRequest Url) :=
  trace.filterMap fun
    | .fetched request _ => some request
    | _ => none

/-- The way of nothing, or of a request on record. -/
def Reached (way : List Url) (trace : List (PortEvent Url)) : Prop :=
  way = [] ∨ ∃ request, PortEvent.fetched request way ∈ trace

/-- What holds of one question to the world after what was asked before. -/
def Permitted (web : Web Url) (limits : Limits) (rule : Rule) (originHost : String)
    (before : List (PortEvent Url)) : PortEvent Url → Prop
  | .resolved host _ => ∃ url, Reachable web rule originHost url ∧ web.hostStr url = some host
  | .fetched request way =>
    Reachable web rule originHost request.url ∧
      Pinned web request.url before request.addresses ∧
      (∃ earlier, way = request.url :: earlier ∧ Reached earlier before) ∧
      way.length ≤ limits.maxDepth ∧
      (requests before).length < limits.maxPages ∧
      ∀ earlier ∈ requests before, cycleKey web earlier.url ≠ cycleKey web request.url
  | .solved request => Reachable web rule originHost request.pageUrl

/-- A record, newest first, of questions that were each permitted. -/
def Bolted (web : Web Url) (limits : Limits) (rule : Rule) (originHost : String)
    (trace : List (PortEvent Url)) : Prop :=
  ∀ after event before, trace = after ++ event :: before →
    Permitted web limits rule originHost before event

/-- A link that is http(s) and not on a literal address that is not public. -/
def Delivered (web : Web Url) (link : String) : Prop :=
  ∃ url, link = web.text url ∧ (web.scheme url = "http" ∨ web.scheme url = "https") ∧
    ∀ address, web.literalAddress url = some address → address.isPublic = true

section

variable {web : Web Url} {limits : Limits} {rule : Rule} {originHost : String}
  {base trace before : List (PortEvent Url)} {event : PortEvent Url} {way : List Url} {url : Url}

theorem hostAllowed_reachable (h : hostAllowed web rule originHost url = true) :
    Reachable web rule originHost url := by
  unfold hostAllowed at h
  split at h
  next hscheme =>
    split at h
    · cases h
    next host hhost =>
      exact ⟨hscheme, host, hhost, by simpa [List.any_eq_true] using h⟩
  · cases h

theorem Reached.mono (h : Reached way base) (hpast : base <:+ trace) : Reached way trace :=
  h.imp_right fun ⟨request, hrequest⟩ => ⟨request, hpast.subset hrequest⟩

theorem Bolted.nil : Bolted web limits rule originHost [] := by
  intro after event before h
  simp at h

theorem Bolted.cons (h : Bolted web limits rule originHost before)
    (hevent : Permitted web limits rule originHost before event) :
    Bolted web limits rule originHost (event :: before) := by
  intro after other earlier heq
  cases after with
  | nil =>
    obtain ⟨rfl, rfl⟩ := List.cons.inj heq
    exact hevent
  | cons first after => exact h after other earlier (List.cons.inj heq).2

end

open Refusing

/-- What holds of a run that went on from a record. -/
structure Since (setting : Setting Url) (base : List (PortEvent Url)) (run : Run Url) : Prop where
  bolted : Bolted setting.web setting.limits setting.rule setting.originHost run.trace
  seen : ∀ request ∈ requests run.trace, cycleKey setting.web request.url ∈ run.seen
  pages : run.pages = (requests run.trace).length
  depth : run.way.length ≤ run.depth
  reached : Reached run.way run.trace
  past : base <:+ run.trace

/-- A program that keeps to the bounds, whatever was asked before it. -/
def Advances {α : Type} (setting : Setting Url) (program : Crawling Url α) : Prop :=
  ∀ base, Keeps (Since setting base) program

section

variable {setting : Setting Url} {base : List (PortEvent Url)} {run next : Run Url} {α β : Type}
  {program : Crawling Url α}

theorem Since.refl (h : Since setting base run) : Since setting run.trace run :=
  { h with past := List.suffix_refl _ }

theorem Since.trans (h : Since setting run.trace next) (hpast : base <:+ run.trace) :
    Since setting base next :=
  { h with past := hpast.trans h.past }

/-- A program may be followed from the state it starts in. -/
theorem Since.rebase {P : Run Url → Prop} (h : ∀ run, P run → Since setting base run ∧
      Ensures (· = run) program (fun _ => Since setting run.trace) (Since setting run.trace)) :
    Ensures P program (fun _ => Since setting base) (Since setting base) := by
  intro run hrun
  obtain ⟨hsince, hprogram⟩ := h run hrun
  exact (hprogram run rfl).mono (fun _ _ hnext => hnext.trans hsince.past)
    fun _ hnext => hnext.trans hsince.past

theorem Advances.bind {rest : α → Crawling Url β} (h : Advances setting program)
    (hrest : ∀ answer, Advances setting (rest answer)) : Advances setting (program >>= rest) :=
  fun base => (h base).bind fun answer => hrest answer base

theorem Advances.pure {answer : α} : Advances setting (pure answer) := fun _ => .pure fun _ => id

theorem Advances.throw {error : RunError} : Advances setting (throw error : Crawling Url α) :=
  fun _ => .throw fun _ => id

theorem Advances.ofExcept {answer : Except RunError α} :
    Advances setting (MonadExcept.ofExcept answer : Crawling Url α) :=
  fun _ => .ofExcept (fun _ => id) fun _ _ _ => id

theorem Advances.get : Advances setting (get : Crawling Url (Run Url)) :=
  fun _ => fun _ h => h

theorem Advances.read {rest : Run Url → Crawling Url α}
    (h : ∀ run, Since setting run.trace run →
      Ensures (· = run) (rest run) (fun _ => Since setting run.trace) (Since setting run.trace)) :
    Advances setting (Bind.bind MonadState.get rest) :=
  fun _ => Since.rebase fun run hrun => ⟨hrun, fun _ heq => heq ▸ h run hrun.refl run rfl⟩

theorem Advances.setVariable {name : String} {value : Value} :
    Advances setting (Run.setVariable name value) :=
  fun _ => .modify fun _ h => { h with }

theorem Advances.elapsed : Advances setting (Run.elapsed setting) :=
  Advances.get.bind fun _ => Advances.bind (fun _ => .modify fun _ h => { h with }) fun _ => .pure

theorem Advances.checkTime : Advances setting (Run.checkTime setting) := by
  refine Advances.elapsed.bind fun now => Advances.get.bind fun run => ?_
  split
  · exact .throw
  · exact .pure

/-! ## The one door to the network -/

variable {url : Url} {way : List Url} {depth : Nat}

theorem resolve_keeps {host : String} (hhost : ∃ url,
      Reachable setting.web setting.rule setting.originHost url ∧
        setting.web.hostStr url = some host) :
    Ensures (Since setting base) (Run.resolve setting host)
      (fun answer run => Since setting base run ∧ run.trace.head? = some (.resolved host answer))
      (Since setting base) := by
  refine Ensures.read fun run hrun => ?_
  refine Ensures.bind (Q := fun _ next => next = { run with
    asked := run.asked + 1
    trace := .resolved host (setting.ports.resolve run.asked host) :: run.trace }) ?_ fun _ => ?_
  · exact .modify fun _ heq => heq ▸ rfl
  · refine .pure fun next heq => ?_
    subst heq
    refine ⟨?_, rfl⟩
    exact { hrun with
      bolted := hrun.bolted.cons hhost
      reached := hrun.reached.mono (List.suffix_cons ..)
      past := hrun.past.trans (List.suffix_cons ..) }

theorem guard_keeps : Ensures (Since setting base) (Run.guard setting url)
    (fun addresses run => Since setting base run ∧
      Reachable setting.web setting.rule setting.originHost url ∧
      Pinned setting.web url run.trace addresses) (Since setting base) := by
  unfold Run.guard
  split
  · exact .throw fun _ => id
  next hallowed =>
    have hreachable := hostAllowed_reachable (by simpa using hallowed)
    split
    · exact .throw fun _ => id
    next host hhost =>
      split
      next address hliteral =>
        split
        next hpublic => exact .pure fun run hrun => ⟨hrun, hreachable, .literal hliteral hpublic⟩
        · exact .throw fun _ => id
      next hname =>
        refine (resolve_keeps ⟨url, hreachable, hhost⟩).bind fun answer => ?_
        split
        · exact .throw fun _ => And.left
        next addresses =>
          split
          · exact .throw fun _ => And.left
          next hsome =>
            split
            · exact .throw fun _ => And.left
            next hnone =>
              refine .pure fun run hrun => ⟨hrun.1, hreachable, ?_⟩
              exact .resolved hname hhost hrun.2 hsome (by simpa using hnone)

theorem fetch_keeps {request : FetchRequest Url} {P : Run Url → Prop}
    (h : ∀ run, P run → Since setting base run ∧
      Permitted setting.web setting.limits setting.rule setting.originHost run.trace
        (.fetched request (request.url :: way))) :
    Ensures P (Run.fetch setting request way)
      (fun _ run => Since setting base run ∧ Reached (request.url :: way) run.trace)
      (Since setting base) := by
  refine Ensures.read fun run hrun => ?_
  obtain ⟨hsince, hpermitted⟩ := h run hrun
  refine Ensures.bind (Q := fun _ next => next = { run with
    seen := cycleKey setting.web request.url :: run.seen
    pages := run.pages + 1
    asked := run.asked + 1
    trace := .fetched request (request.url :: way) :: run.trace }) ?_ fun _ => ?_
  · exact .modify fun _ heq => heq ▸ rfl
  · refine .pure fun next heq => ?_
    subst heq
    refine ⟨?_, .inr ⟨request, List.mem_cons_self⟩⟩
    exact {
      bolted := hsince.bolted.cons hpermitted
      seen := by
        intro earlier hearlier
        obtain rfl | hearlier := List.mem_cons.mp hearlier
        · exact List.mem_cons_self
        · exact List.mem_cons_of_mem _ (hsince.seen earlier hearlier)
      pages := congrArg (· + 1) hsince.pages
      depth := hsince.depth
      reached := hsince.reached.mono (List.suffix_cons ..)
      past := hsince.past.trans (List.suffix_cons ..) }

theorem issue_keeps {method : Method} {form : List (String × String)} {json : Bool}
    (hway : Reached way base) (hdepth : way.length < depth) :
    Ensures (Since setting base) (Run.issue setting url method form json depth way)
      (fun _ run => Since setting base run ∧ Reached (url :: way) run.trace)
      (Since setting base) := by
  unfold Run.issue
  refine Ensures.bind (Advances.checkTime base) fun _ => ?_
  split
  · exact .throw fun _ => id
  next hshallow =>
    refine guard_keeps.bind fun addresses => ?_
    refine Ensures.read fun run ⟨hrun, hreachable, hpinned⟩ => ?_
    split
    · exact .throw fun _ heq => heq ▸ hrun
    next hpages =>
      split
      · exact .throw fun _ heq => heq ▸ hrun
      next hfresh =>
        refine Ensures.bind (fetch_keeps fun next heq => ⟨heq ▸ hrun, ?_⟩) fun answer => ?_
        · subst heq
          refine ⟨hreachable, hpinned, ⟨way, rfl, hway.mono hrun.past⟩, ?_, ?_, ?_⟩
          · exact Nat.le_trans hdepth (Nat.not_lt.mp hshallow)
          · exact hrun.pages ▸ Nat.not_le.mp hpages
          · intro earlier hearlier heq
            exact hfresh (heq ▸ hrun.seen earlier hearlier)
        · split
          · exact .throw fun _ => And.left
          · split
            · exact .throw fun _ => And.left
            · exact .pure fun _ => id

/-! ## Pages and redirects -/

theorem fetchLoop_keeps {method : Method} {form : List (String × String)} {json : Bool}
    (fuel : Nat) (hway : Reached way base) (hdepth : way.length < depth) :
    Keeps (Since setting base) (Run.fetchLoop setting fuel url method form json depth way) := by
  induction fuel generalizing base url method form json depth way with
  | zero => exact (issue_keeps hway hdepth).bind fun _ => .throw fun _ => And.left
  | succ fuel ih =>
    refine (issue_keeps hway hdepth).bind fun response => ?_
    split
    · split
      · exact .throw fun _ => And.left
      next target _ =>
        refine Since.rebase fun run ⟨hrun, hreached⟩ => ⟨hrun, ?_⟩
        exact (ih hreached (Nat.succ_lt_succ hdepth)).here hrun.refl
    · refine Ensures.bind (Q := fun _ run => Since setting base run ∧ Reached (url :: way) run.trace)
        (.ofExcept (fun _ => And.left) fun _ _ _ => id) fun _ => ?_
      refine Ensures.bind (Q := fun _ => Since setting base) ?_ fun _ => .pure fun _ => id
      exact .modify fun run ⟨hrun, hreached⟩ => { hrun with depth := hdepth, reached := hreached }

theorem Advances.fetchPage {method : Method} {form : List (String × String)} {json : Bool} :
    Advances setting (Run.fetchPage setting url method form json) := by
  refine Advances.read fun run hrun => ?_
  exact (fetchLoop_keeps _ hrun.reached (Nat.lt_succ_of_le hrun.depth)).here hrun

theorem Advances.redirectTargetOf {step : Nat} :
    Advances setting (Run.redirectTargetOf setting step url) := by
  refine Advances.read fun run hrun => ?_
  refine (Ensures.here (issue_keeps hrun.reached (Nat.lt_succ_of_le hrun.depth)) hrun).bind
    fun response => ?_
  split
  · split
    · exact .throw fun _ => And.left
    · exact .pure fun _ => And.left
  · exact (Advances.ofExcept.bind (fun _ => .throw) run.trace).weaken (fun _ => And.left)
      (fun _ _ => id) fun _ => id

/-! ## The steps -/

theorem goTo_keeps (hway : Reached way base) (hdepth : way.length ≤ depth) :
    Ensures (Since setting base) (Run.goTo depth way)
      (fun _ run => Since setting base run ∧ run.way = way) (Since setting base) :=
  .modify fun _ hrun =>
    ⟨{ hrun with depth := hdepth, reached := hway.mono hrun.past }, rfl⟩

theorem fetchTargets_keeps {parse : String → Except RunError Value} {start deepest : Nat}
    {targets : List Url} {found : List String} (hway : Reached way base)
    (hdepth : way.length ≤ start) :
    Ensures (fun run => Since setting base run ∧ run.way.length ≤ deepest)
      (Run.fetchTargets setting parse start way targets deepest found)
      (fun answer run => Since setting base run ∧ run.way.length ≤ answer.1)
      (Since setting base) := by
  induction targets generalizing deepest found with
  | nil => exact .pure fun _ => id
  | cons target targets ih =>
    have hgo : Ensures (fun run => Since setting base run ∧ run.way.length ≤ deepest)
        (Run.goTo start way) (fun _ => Since setting base) (Since setting base) :=
      (goTo_keeps hway hdepth).weaken (fun _ => And.left) (fun _ _ => And.left) fun _ => id
    refine hgo.bind fun _ => (Advances.fetchPage base).bind fun (url, response) => ?_
    refine Ensures.read fun run hrun => ?_
    refine Ensures.bind (Q := fun _ next => next = run)
      (.ofExcept (fun _ heq => heq ▸ hrun) fun _ _ _ => id) fun value => ?_
    exact ih.here ⟨hrun, Nat.le_trans hrun.depth (Nat.le_max_right ..)⟩

theorem Advances.fetchEach {step : Nat} {kind : String} {entries : List String}
    {parse : String → Except RunError Value} :
    Advances setting (Run.fetchEach setting step kind entries parse) := by
  refine Advances.read fun run hrun => ?_
  refine Ensures.bind (Q := fun _ next => next = run)
    (.ofExcept (fun _ heq => heq ▸ hrun) fun _ _ _ => id) fun targets => ?_
  refine Ensures.bind ((fetchTargets_keeps hrun.reached hrun.depth).here ⟨hrun, hrun.depth⟩)
    fun (deepest, found) => ?_
  refine Ensures.bind (Q := fun _ => Since setting run.trace) ?_ fun _ => .pure fun _ => id
  exact .modify fun _ ⟨hnext, hdeepest⟩ => { hnext with depth := hdeepest }

theorem Advances.fetchExpanded {step : Nat} {kind template : String}
    {parse : String → Except RunError Value} :
    Advances setting (Run.fetchExpanded setting step kind template parse) := by
  refine Advances.get.bind fun run => Advances.ofExcept.bind fun expansion => ?_
  split
  · exact Advances.ofExcept.bind fun _ => Advances.fetchPage.bind fun _ => .ofExcept
  · exact .fetchEach

theorem Advances.fetchStep {step : Nat} {page into : Option String} :
    Advances setting (Run.fetchStep setting step page into) := by
  unfold Run.fetchStep
  split
  · exact Advances.fetchExpanded.bind fun _ => .setVariable
  · exact Advances.fetchPage.bind fun _ => .setVariable

theorem Advances.regexStep {step : Nat} {pattern : String} {source : Option String}
    {into : String} {all : Bool} :
    Advances setting (Run.regexStep setting step pattern source into all) := by
  refine Advances.get.bind fun run => Advances.ofExcept.bind fun value => ?_
  split
  · exact .throw
  · split
    · exact .throw
    · exact .setVariable

theorem Advances.decodeStep {step : Nat} {encoding : Decoding} {source into : String} :
    Advances setting (Run.decodeStep setting step encoding source into) := by
  refine Advances.get.bind fun run => Advances.ofExcept.bind fun value => ?_
  split
  · exact .throw
  · exact .setVariable

theorem Advances.redirectTargets {step : Nat} (texts : List String) :
    Advances setting (Run.redirectTargets setting step texts) := by
  induction texts with
  | nil => exact .pure
  | cons text texts ih =>
    exact Advances.get.bind fun _ => Advances.ofExcept.bind fun _ =>
      Advances.redirectTargetOf.bind fun _ => ih.bind fun _ => .pure

theorem solve_keeps {solver : Nat → CaptchaRequest Url → Except String String}
    {request : CaptchaRequest Url}
    (h : Reachable setting.web setting.rule setting.originHost request.pageUrl) :
    Advances setting (Run.solve setting solver request) := by
  refine Advances.elapsed.bind fun asked => Advances.get.bind fun run => ?_
  refine Advances.bind (fun _ => .modify fun run hrun => ?_) fun _ => ?_
  · exact { hrun with
      bolted := hrun.bolted.cons h
      reached := hrun.reached.mono (List.suffix_cons ..)
      past := hrun.past.trans (List.suffix_cons ..) }
  · exact Advances.elapsed.bind fun _ =>
      Advances.bind (fun _ => .modify fun _ hrun => { hrun with }) fun _ => .pure

theorem Advances.captchaStep {step : Nat} {challenge : String} {sitekey into page : Option String}
    {invisible : Bool} :
    Advances setting (Run.captchaStep setting step challenge sitekey into page invisible) := by
  unfold Run.captchaStep
  split
  · exact .throw
  · refine Advances.get.bind fun run => Advances.ofExcept.bind fun sitekey =>
      Advances.ofExcept.bind fun pageUrl => ?_
    split
    next hallowed =>
      refine (solve_keeps (hostAllowed_reachable hallowed)).bind fun answer => ?_
      split
      · exact .throw
      · split
        · exact .throw
        · exact .setVariable
    · exact .throw

/-- Every step keeps to the bounds. -/
theorem Advances.step {index : Nat} (step : Step) : Advances setting (Run.step setting index step) := by
  refine Advances.checkTime.bind fun _ => ?_
  cases step with
  | fetch url into => exact .fetchStep
  | fetchJson url path into => exact Advances.fetchExpanded.bind fun _ => .setVariable
  | regex pattern source into all => exact .regexStep
  | decode encoding source into => exact .decodeStep
  | form url fields into json =>
    exact Advances.get.bind fun _ => Advances.ofExcept.bind fun _ => Advances.ofExcept.bind fun _ =>
      Advances.ofExcept.bind fun _ => Advances.fetchPage.bind fun _ => .setVariable
  | redirect source into =>
    exact Advances.get.bind fun _ => Advances.ofExcept.bind fun _ =>
      (Advances.redirectTargets _).bind fun _ => .setVariable
  | captcha challenge sitekey into page invisible => exact .captchaStep

theorem Advances.steps {first : Nat} (steps : List Step) :
    Advances setting (Run.steps setting first steps) := by
  induction steps generalizing first with
  | nil => exact .pure
  | cons step steps ih => exact (Advances.step step).bind fun _ => ih

end

end SiteRules

end RDownloader
