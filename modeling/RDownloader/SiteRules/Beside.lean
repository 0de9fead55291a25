import RDownloader.SiteRules.Reading

/-!
# A run beside another

A run that reads the same variables and has spent no more goes wherever the other one goes: no
budget and no cycle can end it earlier, and the world answers it alike.
-/

namespace RDownloader

namespace SiteRules

open Refusing

variable {Url : Type}

/-- The world answers a request alike whenever it is made, and the time does not go back. -/
structure Steady (ports : Ports Url) : Prop where
  fetch : ∀ n m request, ports.fetch n request = ports.fetch m request
  resolve : ∀ n m host, ports.resolve n host = ports.resolve m host
  captcha : ∀ solver, ports.captcha = some solver →
    ∀ n m request, solver n request = solver m request
  elapsed : ∀ n m, n ≤ m → ports.elapsed n ≤ ports.elapsed m

/-- `run` went on from `base` and wrote `written` alone. -/
structure Later (base : Run Url) (written : List String) (run : Run Url) : Prop where
  vars : ∀ name, name ∉ written → run.vars name = base.vars name
  seen : base.seen ⊆ run.seen
  pages : base.pages ≤ run.pages
  waited : run.waited = base.waited
  asked : base.asked ≤ run.asked

/-- `other` stands where `run` does, has spent no more, and has the same variables but for the
hidden ones. -/
structure Lighter (hidden : String → Prop) (run other : Run Url) : Prop where
  vars : ∀ name, ¬hidden name → other.vars name = run.vars name
  seen : other.seen ⊆ run.seen
  pages : other.pages ≤ run.pages
  depth : other.depth = run.depth
  waited : other.waited = run.waited
  asked : other.asked ≤ run.asked
  way : other.way = run.way

def Beside (base : Run Url) (written : List String) (hidden : String → Prop)
    (run other : Run Url) : Prop := Later base written run ∧ Lighter hidden run other

/-- What a group relies on: a world that answers alike, and a budget that waits for nobody. -/
structure Fair (setting : Setting Url) : Prop where
  steady : Steady setting.ports
  unpaused : setting.captchaPaused = false

variable {setting : Setting Url} {base run other : Run Url} {written : List String}
  {hidden : String → Prop} {name : String}

theorem Beside.set (h : Beside base written hidden run other) (hname : name ∈ written)
    (value : Value) : Beside base written hidden { run with vars := run.vars.set name value }
      { other with vars := other.vars.set name value } := by
  obtain ⟨hlater, hlighter⟩ := h
  refine ⟨{ hlater with vars := fun read hread => ?_ },
    { hlighter with vars := fun read hread => ?_ }⟩
  · have hne : read ≠ name := fun heq => hread (heq ▸ hname)
    exact (if_neg hne).trans (hlater.vars read hread)
  · dsimp only [Variables.set]
    split
    next => rfl
    next => exact hlighter.vars read hread

namespace Run

/-! ## Asking the world -/

theorem checkTime_repeats (h : Fair setting) :
    Repeats (Beside base written hidden) (checkTime setting) := by
  rintro run other ⟨hlater, hlighter⟩ answer next hexec
  have hcheck (run : Run Url) : (checkTime setting).exec run =
      exec (if setting.limits.maxTotalTime <
          setting.ports.elapsed run.asked - setting.ports.elapsed 0 - run.waited then
        throw (.limitTime setting.limits.maxTotalTime) else pure () : Crawling Url Unit)
        { run with asked := run.asked + 1 } := rfl
  have hclock := h.steady.elapsed _ _ hlighter.asked
  rw [hcheck] at hexec ⊢
  split at hexec
  next => cases hexec
  next htime =>
    cases hexec
    rw [if_neg (by rw [hlighter.waited]; omega)]
    refine ⟨_, rfl, { hlater with asked := ?_ }, { hlighter with asked := ?_ }⟩
    · exact Nat.le_succ_of_le hlater.asked
    · exact Nat.succ_le_succ hlighter.asked

theorem resolve_repeats (h : Fair setting) (host : String) :
    Repeats (Beside base written hidden) (resolve setting host) := by
  rintro run other ⟨hlater, hlighter⟩ _ _ ⟨⟩
  refine ⟨{ other with
      asked := other.asked + 1
      trace := .resolved host (setting.ports.resolve run.asked host) :: other.trace }, ?_,
    { hlater with asked := Nat.le_succ_of_le hlater.asked },
    { hlighter with asked := Nat.succ_le_succ hlighter.asked }⟩
  rw [h.steady.resolve run.asked other.asked]
  rfl

theorem guard_repeats (h : Fair setting) {url : Url} :
    Repeats (Beside base written hidden) (guard setting url) := by
  unfold guard
  split
  next => exact .throw _
  next =>
    split
    next => exact .throw _
    next host _ =>
      split
      next =>
        split
        next => exact .pure _
        next => exact .throw _
      next =>
        refine (resolve_repeats h host).bind fun answer => ?_
        split
        next => exact .throw _
        next =>
          split
          next => exact .throw _
          next =>
            split
            next => exact .throw _
            next => exact .pure _

theorem fetch_repeats (h : Fair setting) (request : FetchRequest Url) (way : List Url) :
    Repeats (Beside base written hidden) (fetch setting request way) := by
  rintro run other ⟨hlater, hlighter⟩ _ _ ⟨⟩
  refine ⟨{ other with
      seen := cycleKey setting.web request.url :: other.seen
      pages := other.pages + 1
      asked := other.asked + 1
      trace := .fetched request (request.url :: way) :: other.trace }, ?_, ?_, ?_⟩
  · rw [h.steady.fetch run.asked other.asked]
    rfl
  · exact { hlater with
      seen := List.subset_cons_of_subset _ hlater.seen
      pages := Nat.le_succ_of_le hlater.pages
      asked := Nat.le_succ_of_le hlater.asked }
  · exact { hlighter with
      seen := List.cons_subset_cons _ hlighter.seen
      pages := Nat.succ_le_succ hlighter.pages
      asked := Nat.succ_le_succ hlighter.asked }

variable {url : Url} {method : Method} {form : List (String × String)} {json : Bool} {depth : Nat}
  {way : List Url}

theorem issue_repeats (h : Fair setting) :
    Repeats (Beside base written hidden) (issue setting url method form json depth way) := by
  refine (checkTime_repeats h).bind fun _ => ?_
  split
  next => exact .throw _
  next =>
    refine (guard_repeats h).bind fun addresses => ?_
    -- the pages and the cycle set are what the two runs differ in
    refine .refuse (fun run other hbeside hpages => Nat.le_trans hpages hbeside.2.pages) ?_
    refine .refuse (fun run other hbeside hmem => hbeside.2.seen hmem) ?_
    refine .read (fun _ _ _ => rfl) fun _ => ?_
    refine (fetch_repeats h _ way).bind fun answer => ?_
    split
    next => exact .throw _
    next =>
      split
      next => exact .throw _
      next => exact .pure _

theorem fetchLoop_repeats (h : Fair setting) (hpage : pageUrlVariable ∈ written) {fuel : Nat} :
    Repeats (Beside base written hidden)
      (fetchLoop setting fuel url method form json depth way) := by
  induction fuel generalizing url method form json depth way with
  | zero => exact (issue_repeats h).bind fun _ => .throw _
  | succ fuel ih =>
    refine (issue_repeats h).bind fun response => ?_
    split
    next =>
      split
      next => exact .throw _
      next => exact ih
    next =>
      refine (Repeats.ofExcept _).bind fun _ => ?_
      refine (Repeats.modify fun run other hbeside => ?_).bind fun _ => .pure _
      obtain ⟨hlater, hlighter⟩ := hbeside.set hpage (.one (setting.web.text url))
      exact ⟨{ hlater with }, { hlighter with depth := rfl, way := rfl }⟩

theorem fetchPage_repeats (h : Fair setting) (hpage : pageUrlVariable ∈ written) :
    Repeats (Beside base written hidden) (fetchPage setting url method form json) := by
  refine .read (fun run other hbeside => ?_) fun run => fetchLoop_repeats h hpage
  rw [hbeside.2.depth, hbeside.2.way]

theorem redirectTargetOf_repeats (h : Fair setting) (step : Nat) :
    Repeats (Beside base written hidden) (redirectTargetOf setting step url) := by
  refine .read (fun run other hbeside => ?_) fun run => ?_
  · rw [hbeside.2.depth, hbeside.2.way]
  · refine (issue_repeats h).bind fun response => ?_
    split
    next =>
      split
      next => exact .throw _
      next => exact .pure _
    next => exact (Repeats.ofExcept _).bind fun _ => .throw _

/-! ## Reading variables -/

theorem currentPage_beside (h : Lighter hidden run other) (hpage : ¬hidden pageUrlVariable) :
    currentPage setting other = currentPage setting run := by
  funext step
  rw [currentPage, currentPage, h.vars _ hpage]

theorem target_beside (h : Lighter hidden run other) (hpage : ¬hidden pageUrlVariable) :
    target setting other = target setting run := by
  funext step kind text
  unfold target
  rw [currentPage_beside h hpage]

theorem read_beside (h : Lighter hidden run other) (hname : ¬hidden name) (step : Nat)
    (kind : String) : read other step kind name = read run step kind name := by
  rw [read, read, h.vars _ hname]

variable {template : String}

theorem expand_beside (h : Lighter hidden run other)
    (hreads : ∀ name ∈ templateReads template, ¬hidden name) (step : Nat) (kind : String) :
    expand other step kind template = expand run step kind template := by
  rw [expand, expand, Variables.expand, Variables.expand,
    Variables.substitute_congr fun name hname => h.vars name (hreads name hname)]

theorem expandEach_beside (h : Lighter hidden run other)
    (hreads : ∀ name ∈ templateReads template, ¬hidden name) (step : Nat) (kind : String) :
    expandEach other step kind template = expandEach run step kind template := by
  rw [expandEach, expandEach,
    Variables.expandEach_congr fun name hname => h.vars name (hreads name hname)]

/-! ## Steps -/

theorem goTo_repeats (depth : Nat) (way : List Url) :
    Repeats (Beside base written hidden) (goTo depth way) :=
  .modify fun _ _ ⟨hlater, hlighter⟩ =>
    ⟨{ hlater with }, { hlighter with depth := rfl, way := rfl }⟩

theorem setDepth_repeats (depth : Nat) :
    Repeats (Beside base written hidden) (setDepth depth : Crawling Url Unit) :=
  .modify fun _ _ ⟨hlater, hlighter⟩ => ⟨{ hlater with }, { hlighter with depth := rfl }⟩

theorem setVariable_repeats (hname : name ∈ written) (value : Value) :
    Repeats (Beside base written hidden) (setVariable name value : Crawling Url Unit) :=
  .modify fun _ _ hbeside => hbeside.set hname value

theorem fetchTargets_repeats (h : Fair setting) (hpage : pageUrlVariable ∈ written)
    {parse : String → Except RunError Value} {start : Nat} {startWay targets : List Url}
    {deepest : Nat} {found : List String} : Repeats (Beside base written hidden)
      (fetchTargets setting parse start startWay targets deepest found) := by
  induction targets generalizing deepest found with
  | nil => exact .pure _
  | cons target targets ih =>
    refine (goTo_repeats start startWay).bind fun _ => ?_
    refine (fetchPage_repeats h hpage).bind fun ⟨_, response⟩ => ?_
    refine .read (fun run other hbeside => ?_) fun run => ?_
    · rw [hbeside.2.depth]
    · exact (Repeats.ofExcept _).bind fun value => ih

theorem fetchEach_repeats (h : Fair setting) (hpage : pageUrlVariable ∈ written)
    (hread : ¬hidden pageUrlVariable) {step : Nat} {kind : String} {entries : List String}
    {parse : String → Except RunError Value} :
    Repeats (Beside base written hidden) (fetchEach setting step kind entries parse) := by
  refine .read (fun run other hbeside => ?_) fun run => ?_
  · rw [target_beside hbeside.2 hread, hbeside.2.depth, hbeside.2.way]
  · refine (Repeats.ofExcept _).bind fun targets => ?_
    refine (fetchTargets_repeats h hpage).bind fun ⟨deepest, found⟩ => ?_
    exact (setDepth_repeats deepest).bind fun _ => .pure _

theorem fetchExpanded_repeats (h : Fair setting) (hpage : pageUrlVariable ∈ written)
    (hread : ¬hidden pageUrlVariable) (hreads : ∀ name ∈ templateReads template, ¬hidden name)
    {step : Nat} {kind : String} {parse : String → Except RunError Value} :
    Repeats (Beside base written hidden) (fetchExpanded setting step kind template parse) := by
  refine .read (fun run other hbeside => ?_) fun run => ?_
  · rw [target_beside hbeside.2 hread, expandEach_beside hbeside.2 hreads]
  · refine (Repeats.ofExcept _).bind fun expansion => ?_
    split
    next =>
      refine (Repeats.ofExcept _).bind fun url => ?_
      exact (fetchPage_repeats h hpage).bind fun _ => .ofExcept _
    next => exact fetchEach_repeats h hpage hread

theorem redirectTargets_repeats (h : Fair setting) (hread : ¬hidden pageUrlVariable) (step : Nat)
    (texts : List String) :
    Repeats (Beside base written hidden) (redirectTargets setting step texts) := by
  induction texts with
  | nil => exact .pure _
  | cons text texts ih =>
    refine .read (fun run other hbeside => ?_) fun run => ?_
    · rw [target_beside hbeside.2 hread]
    · refine (Repeats.ofExcept _).bind fun url => ?_
      refine (redirectTargetOf_repeats h step).bind fun found => ?_
      exact ih.bind fun _ => .pure _

theorem solve_repeats (h : Fair setting) {solver : Nat → CaptchaRequest Url → Except String String}
    (hsolver : setting.ports.captcha = some solver) (request : CaptchaRequest Url) :
    Repeats (Beside base written hidden) (solve setting solver request) := by
  have hsolve (run : Run Url) : (solve setting solver request).exec run =
      (.ok (solver (run.asked + 1) request), { run with
        asked := run.asked + 3
        trace := .solved request :: run.trace
        waited := if setting.captchaPaused then
          run.waited + (setting.ports.elapsed (run.asked + 2) - setting.ports.elapsed run.asked)
          else run.waited }) := rfl
  rintro run other ⟨hlater, hlighter⟩ answer next hexec
  rw [hsolve] at hexec ⊢
  cases hexec
  rw [h.unpaused, h.steady.captcha solver hsolver (run.asked + 1) (other.asked + 1)]
  refine ⟨_, rfl, ?_, ?_⟩
  · exact { hlater with asked := Nat.le_trans hlater.asked (Nat.le_add_right ..) }
  · exact { hlighter with asked := Nat.add_le_add_right hlighter.asked 3 }

theorem captchaPage_beside (h : Lighter hidden run other) (hpage : ¬hidden pageUrlVariable)
    {page : Option String} (hreads : ∀ name ∈ (page.map templateReads).getD [], ¬hidden name)
    (step : Nat) : captchaPage setting other step page = captchaPage setting run step page := by
  cases page with
  | none => exact congrFun (currentPage_beside h hpage) step
  | some template =>
    dsimp only [captchaPage]
    rw [expand_beside h hreads, target_beside h hpage]

theorem sitekey_beside (h : Lighter hidden run other) {sitekey : Option String}
    (hreads : ∀ name ∈ (sitekey.map templateReads).getD [], ¬hidden name) (step : Nat) :
    sitekey.mapM (expand other step "captcha") = sitekey.mapM (expand run step "captcha") := by
  cases sitekey with
  | none => rfl
  | some template => rw [Option.mapM_some, Option.mapM_some, expand_beside h hreads]

theorem formFields_beside (h : Lighter hidden run other) {fields : List (String × String)}
    (hreads : ∀ field ∈ fields, ∀ name ∈ templateReads field.2, ¬hidden name) (step : Nat) :
    fields.mapM (fun field => (expand other step "form" field.2).map (field.1, ·)) =
      fields.mapM fun field => (expand run step "form" field.2).map (field.1, ·) := by
  induction fields with
  | nil => rfl
  | cons field fields ih =>
    obtain ⟨hfield, hrest⟩ := List.forall_mem_cons.mp hreads
    rw [List.mapM_cons, List.mapM_cons, ih hrest, expand_beside h hfield]

/-- A step reads what it names and writes what it names; two runs that differ elsewhere go through
it alike. -/
theorem step_repeats (h : Fair setting) (hpage : pageUrlVariable ∈ written)
    (hread : ¬hidden pageUrlVariable) {next : Step} (hwritten : next.writtenBy ∈ written)
    (hreads : ∀ name ∈ next.reads, ¬hidden name) (index : Nat) :
    Repeats (Beside base written hidden) (step setting index next) := by
  refine (checkTime_repeats h).bind fun _ => ?_
  cases next with
  | fetch url into =>
    cases url with
    | none =>
      refine (fetchPage_repeats h hpage).bind fun _ => ?_
      exact setVariable_repeats hwritten _
    | some template =>
      refine (fetchExpanded_repeats h hpage hread hreads).bind fun _ => ?_
      exact setVariable_repeats hwritten _
  | fetchJson url path into =>
    refine (fetchExpanded_repeats h hpage hread hreads).bind fun _ => ?_
    exact setVariable_repeats hwritten _
  | regex pattern source into all =>
    refine .read (fun run other hbeside => ?_) fun run => ?_
    · rw [read_beside hbeside.2 (hreads _ (List.mem_singleton_self _))]
    · refine (Repeats.ofExcept _).bind fun value => ?_
      split
      next => exact .throw _
      next =>
        split
        next => exact .throw _
        next => exact setVariable_repeats hwritten _
  | decode encoding source into =>
    refine .read (fun run other hbeside => ?_) fun run => ?_
    · rw [read_beside hbeside.2 (hreads _ (List.mem_singleton_self _))]
    · refine (Repeats.ofExcept _).bind fun value => ?_
      split
      next => exact .throw _
      next => exact setVariable_repeats hwritten _
  | form url fields into json =>
    obtain ⟨hurl, hfields⟩ := List.forall_mem_append.mp hreads
    refine .read (fun run other hbeside => ?_) fun run => ?_
    · rw [expand_beside hbeside.2 hurl, target_beside hbeside.2 hread,
        formFields_beside hbeside.2 (List.forall_mem_flatMap.mp hfields)]
    · refine (Repeats.ofExcept _).bind fun expanded => ?_
      refine (Repeats.ofExcept _).bind fun url => ?_
      refine (Repeats.ofExcept _).bind fun body => ?_
      refine (fetchPage_repeats h hpage).bind fun _ => ?_
      exact setVariable_repeats hwritten _
  | redirect source into =>
    refine .read (fun run other hbeside => ?_) fun run => ?_
    · rw [read_beside hbeside.2 (hreads _ (List.mem_singleton_self _))]
    · refine (Repeats.ofExcept _).bind fun value => ?_
      refine (redirectTargets_repeats h hread index _).bind fun targets => ?_
      exact setVariable_repeats hwritten _
  | captcha challenge sitekey into page invisible =>
    obtain ⟨hsitekey, hpageReads⟩ := List.forall_mem_append.mp hreads
    change Repeats _ (captchaStep setting index challenge sitekey into page invisible)
    unfold captchaStep
    split
    next => exact .throw _
    next solver hsolver =>
      refine .read (fun run other hbeside => ?_) fun run => ?_
      · rw [captchaPage_beside hbeside.2 hread hpageReads, sitekey_beside hbeside.2 hsitekey]
      · refine (Repeats.ofExcept _).bind fun sitekey => ?_
        refine (Repeats.ofExcept _).bind fun pageUrl => ?_
        split
        next =>
          refine (solve_repeats h hsolver _).bind fun answer => ?_
          split
          next => exact .throw _
          next =>
            split
            next => exact .throw _
            next => exact setVariable_repeats hwritten _
        next => exact .throw _

theorem steps_repeats (h : Fair setting) (hpage : pageUrlVariable ∈ written)
    (hread : ¬hidden pageUrlVariable) {list : List Step}
    (hwritten : ∀ next ∈ list, next.writtenBy ∈ written)
    (hreads : ∀ next ∈ list, ∀ name ∈ next.reads, ¬hidden name) (first : Nat) :
    Repeats (Beside base written hidden) (steps setting first list) := by
  induction list generalizing first with
  | nil => exact .pure _
  | cons next list ih =>
    obtain ⟨hnext, hrest⟩ := List.forall_mem_cons.mp hwritten
    obtain ⟨hnextReads, hrestReads⟩ := List.forall_mem_cons.mp hreads
    exact (step_repeats h hpage hread hnext hnextReads first).bind fun _ => ih hrest hrestReads _

end Run

end SiteRules

end RDownloader
