import Img2Web.Text.Base64
import Img2Web.Requests.FeedBody
import Img2Web.Concurrency.Feed
import Img2Web.Concurrency.Tables

/-!
The service as `main.py` uses it. A picture is posted in Base64, and the feed is
read as JSON and its images are decoded. Base64 has no character that the JSON
of the service would have to escape, so what a viewer is shown are pictures
that were posted, as they were posted, under the names of the users who posted
them.
-/

namespace Img2Web

open Text Cql Json Interaction

/-- The arguments that `post` of `main.py` sends. -/
def upload (login : String) (picture : Bytes) : Args :=
  postArgs (bytes login) (bytes (b64encode picture))

/-- What `feed` of `main.py` shows of a response: the owner and the decoded
image of each item. -/
def Shows (resp : Response) (shown : List (String × Bytes)) : Prop :=
  ∃ items : List FeedItem, Decodes resp.body items ∧
    List.Forall₂ (fun item picture => item.1 = picture.1 ∧ b64decode item.2 = some picture.2)
      items shown

/-- A response shows at most one list of pictures. -/
theorem Shows.unique {resp : Response} {shown shown' : List (String × Bytes)}
    (h : Shows resp shown) (h' : Shows resp shown') : shown = shown' := by
  obtain ⟨items, ⟨text, v, hbody, hdenotes, hfeed⟩, hdecode⟩ := h
  obtain ⟨items', ⟨text', v', hbody', hdenotes', hfeed'⟩, hdecode'⟩ := h'
  have htext : text' = text := bytes_inj.mp (hbody'.symm.trans hbody)
  subst htext
  have hvalue := hdenotes'.unique hdenotes
  subst hvalue
  have hitems := hfeed'.unique hfeed
  subst hitems
  have hpicture : Relator.RightUnique (fun (item : FeedItem) (picture : String × Bytes) =>
      item.1 = picture.1 ∧ b64decode item.2 = some picture.2) := by
    intro item picture picture' ⟨howner, himage⟩ ⟨howner', himage'⟩
    apply Prod.ext
    · exact howner.symm.trans howner'
    · exact Option.some.inj (himage.symm.trans himage')
  exact List.right_unique_forall₂' hpicture hdecode hdecode'

/-- No character of the text must be escaped in JSON. -/
def Unescaped (s : String) : Prop := ∀ c ∈ s.toList, isSpecial c = false

section Encoding

theorem b64encode_injective : Function.Injective b64encode := by
  intro picture picture' h
  have hdecode := congrArg b64decode h
  rw [b64decode_b64encode, b64decode_b64encode] at hdecode
  exact Option.some.inj hdecode

theorem unescaped_b64encode (picture : Bytes) : Unescaped (b64encode picture) := by
  rw [Unescaped, b64encode, String.toList_ofList]
  exact encodeGroups_forall (P := fun c => isSpecial c = false) (by decide) (by decide) picture

end Encoding

/-- The feed item in which a picture is posted. -/
def pictureItem (picture : String × Bytes) : FeedItem := (picture.1, b64encode picture.2)

theorem pictureItem_injective {picture picture' : String × Bytes}
    (h : (pictureItem picture).description = (pictureItem picture').description) :
    picture = picture' := by
  obtain ⟨howner, himage⟩ := ImageDescription.mk.inj h
  have hpicture := b64encode_injective (bytes_inj.mp himage)
  exact Prod.ext (bytes_inj.mp howner) hpicture

/-- A feed of posted pictures shows these pictures. -/
theorem shows_pictures {shown : List (String × Bytes)}
    (hclean : ∀ picture ∈ shown, Unescaped picture.1) :
    Shows (.items ((shown.map pictureItem).map FeedItem.description)) shown := by
  refine ⟨shown.map pictureItem, (feedBody_decodes_iff _).mpr ?_, ?_⟩
  · intro item hitem
    obtain ⟨picture, hpicture, rfl⟩ := List.mem_map.mp hitem
    exact ⟨hclean picture hpicture, unescaped_b64encode picture.2⟩
  · rw [List.forall₂_map_left_iff, List.forall₂_same]
    exact fun picture _ => ⟨rfl, b64decode_b64encode picture.2⟩

/-- Rows that are all posted pictures are a list of posted pictures. -/
theorem exists_pictures {rows : List ImageRow}
    (h : ∀ row ∈ rows, ∃ picture, row.description = (pictureItem picture).description) :
    ∃ shown : List (String × Bytes),
      rows.map ImageRow.description = (shown.map pictureItem).map FeedItem.description := by
  induction rows with
  | nil => exact ⟨[], rfl⟩
  | cons row rows ih =>
      obtain ⟨picture, hpicture⟩ := h row List.mem_cons_self
      obtain ⟨shown, hshown⟩ := ih fun r hr => h r (List.mem_cons_of_mem row hr)
      refine ⟨picture :: shown, ?_⟩
      rw [List.map_cons, hpicture, hshown]
      rfl

theorem mem_shown_iff {rows : List ImageRow} {shown : List (String × Bytes)}
    (hsame : rows.map ImageRow.description =
      (shown.map pictureItem).map FeedItem.description) {picture : String × Bytes} :
    picture ∈ shown ↔
      ∃ row ∈ rows, row.description = (pictureItem picture).description := by
  have hinjective : Function.Injective (FeedItem.description ∘ pictureItem) :=
    fun _ _ h => pictureItem_injective h
  rw [← List.mem_map, hsame, List.map_map]
  exact (List.mem_map_of_injective hinjective).symm

/-- All images that are posted come from `main.py`, for logins that need no
escaping in JSON. -/
def OnlyUploads (c : Server) : Prop :=
  ∀ args, Began c (.postImage args) →
    ∃ login picture, Unescaped login ∧ args = upload login picture

section Runs

variable {c c' : Server} {args : Args} {resp : Response}
  (hbefore : Pool.Run (fun _ => faulty risingClock) Request.handleRequest
    (Pool.empty Store.empty) c)

include hbefore

/-- Every stored image is an uploaded picture. -/
theorem image_uploaded (huploads : OnlyUploads c) {row : ImageRow}
    (hrow : row ∈ c.state.images) :
    ∃ picture : String × Bytes, row.description = (pictureItem picture).description ∧
      Unescaped picture.1 ∧ Began c (.postImage (upload picture.1 picture.2)) := by
  obtain ⟨stamp, hledger⟩ := exists_ledger (hbefore.mono fun _ _ _ _ _ h => faulty_anyClock h)
  rcases hledger.origin row hrow with hstart | ⟨m, args, hm, rfl⟩
  · cases hstart
  · have hbegan : Began c (.postImage args) := ⟨_, List.mem_of_getElem? hm⟩
    obtain ⟨login, picture, hclean, rfl⟩ := huploads args hbegan
    exact ⟨(login, picture), rfl, hclean, hbegan⟩

/-- The picture of an answered upload is stored. -/
theorem upload_stored {m : Nat} {login : String} {picture : Bytes}
    (hm : Answered c m (upload login picture)) :
    ∃ row ∈ c.state.images, row.description = (pictureItem (login, picture)).description := by
  obtain ⟨stamp, hledger⟩ := exists_ledger (hbefore.mono fun _ _ _ _ _ h => faulty_anyClock h)
  exact ⟨_, (hledger.stored m _ hm).1, rfl⟩

/-- A feed that is answered shows uploaded pictures of users its reader follows,
at most `top` of them; and a picture that was uploaded before, by a user who was
followed already, is shown unless `top` others are. -/
theorem pictures_shown
    (hrun : Pool.Run (fun _ => faulty risingClock) Request.handleRequest
      (c.arrive Request.handleRequest (.getFeed args)) c')
    (huploads : OnlyUploads c')
    (hended : c'.clients[c.clients.length]? = some (.getFeed args, .ret resp))
    (hsuccess : resp.Success) :
    ∃ shown, Shows resp shown ∧ shown.length ≤ GetFeed.top args ∧
      (∀ picture ∈ shown, Began c' (.postImage (upload picture.1 picture.2)) ∧
        (getArg args "login", bytes picture.1) ∈ c'.state.subscriptions) ∧
      ∀ m picture, Answered c m (upload picture.1 picture.2) →
        (getArg args "login", bytes picture.1) ∈ c.state.subscriptions →
        picture ∈ shown ∨ shown.length = GetFeed.top args := by
  have hafter := (hbefore.tail (.arrive c (.getFeed args))).trans hrun
  obtain ⟨rows, rfl, hbetween⟩ := feed_between hrun hended hsuccess
  have hstored : ∀ row ∈ rows, row ∈ c'.state.images := fun row hrow => (hbetween.upper row hrow).1
  obtain ⟨shown, hsame⟩ : ∃ shown : List (String × Bytes),
      rows.map ImageRow.description = (shown.map pictureItem).map FeedItem.description := by
    apply exists_pictures
    intro row hrow
    obtain ⟨picture, hpicture, -⟩ := image_uploaded hafter huploads (hstored row hrow)
    exact ⟨picture, hpicture⟩
  have hlength : shown.length = rows.length := by
    simpa using (congrArg List.length hsame).symm
  have howner {row : ImageRow} {picture : String × Bytes}
      (h : row.description = (pictureItem picture).description) : row.login = bytes picture.1 :=
    congrArg ImageDescription.postedBy h
  have hupload {picture : String × Bytes} (hpicture : picture ∈ shown) :
      Unescaped picture.1 ∧ Began c' (.postImage (upload picture.1 picture.2)) := by
    obtain ⟨row, hmem, hdescription⟩ := (mem_shown_iff hsame).mp hpicture
    obtain ⟨picture', hpicture', huploaded⟩ := image_uploaded hafter huploads (hstored row hmem)
    obtain rfl := pictureItem_injective (hpicture'.symm.trans hdescription)
    exact huploaded
  rw [hsame]
  refine ⟨shown, shows_pictures fun picture h => (hupload h).1, ?_, ?_, ?_⟩
  · rw [hlength]
    exact hbetween.length_le
  · intro picture hpicture
    obtain ⟨row, hmem, hdescription⟩ := (mem_shown_iff hsame).mp hpicture
    have hfollowed := (hbetween.upper row hmem).2
    rw [howner hdescription] at hfollowed
    exact ⟨(hupload hpicture).2, hfollowed⟩
  · intro m picture hm hfollowed
    obtain ⟨row, hrow, hdescription⟩ := upload_stored hbefore hm
    rw [← howner hdescription] at hfollowed
    by_cases hlisted : row ∈ rows
    · exact Or.inl ((mem_shown_iff hsame).mpr ⟨row, hlisted, hdescription⟩)
    · right
      rw [hlength]
      exact (hbetween.lower row hrow hfollowed hlisted).1

end Runs

section Example

/-- What is stored when ann has posted a picture. -/
def annPosted : Store := annKnown.addImage ⟨bytes "ann", 1, bytes "YQ=="⟩ annKnown_fresh

theorem annPost_faulty :
    annPost.handleRequest.Execution (faulty risingClock) Store.empty
      [.insertUser (bytes "ann"), .insertSubscription (bytes "ann") (bytes "ann"),
        .insertImage (bytes "ann") (bytes "YQ==")] annPosted .posted := by
  rw [annPost, Request.handleRequest, PostImage.handleRequest_eq annPost_complete]
  refine .call (Executes.faulty (.insertUser _ _)) ?_
  refine .call (Executes.faulty (.insertSubscription _ _ _)) ?_
  refine .call (Executes.faulty (.insertImage _ _ _ _ annKnown_fresh ?_)) ?_
  · exact fun row hrow => by cases hrow
  · exact .ret _ _

/-- Then she reads her feed. -/
theorem annFeed_faulty :
    (Request.getFeed annArgs).handleRequest.Execution (faulty risingClock) annPosted
      [.insertUser (bytes "ann"), .insertSubscription (bytes "ann") (bytes "ann"),
        .selectSubscriptions .loginTo .loginFrom (bytes "ann"),
        .selectFeed [bytes "ann"] 10]
      ((annPosted.addUser (bytes "ann")).addSubscription (bytes "ann") (bytes "ann"))
      (.items [annImage.description]) := by
  have hpairs : ((annPosted.addUser (bytes "ann")).addSubscription (bytes "ann")
      (bytes "ann")).subscriptionsWhere .loginFrom (bytes "ann") =
        {(bytes "ann", bytes "ann")} := by decide
  have himages : ((annPosted.addUser (bytes "ann")).addSubscription (bytes "ann")
      (bytes "ann")).imagesIn [bytes "ann"] = {annImage} := by decide
  have hfollowed := Enumerates.singleton (bytes "ann", bytes "ann")
  have hrows : NewestFirst {annImage} 10 [annImage] :=
    ⟨_, Enumerates.singleton annImage, List.pairwise_singleton _ _, rfl⟩
  rw [← hpairs] at hfollowed
  rw [← himages] at hrows
  have hcomplete : (Request.getFeed annArgs).Complete := rfl
  rw [Request.handleRequest, GetFeed.handleRequest_eq hcomplete]
  refine .call (Executes.faulty (.insertUser _ _)) ?_
  refine .call (Executes.faulty (.insertSubscription _ _ _)) ?_
  refine .call (Executes.faulty (.selectSubscriptions _ _ _ _ _ hfollowed)) ?_
  refine .call (Executes.faulty (.selectFeed _ _ _ _ hrows)) ?_
  exact .ret _ _

/-- Ann posts a picture, and then her feed shows it. -/
theorem pictures_shown_ann : ∃ (c c' : Server),
    Answered c 0 (upload "ann" [97]) ∧ (bytes "ann", bytes "ann") ∈ c.state.subscriptions ∧
    c'.clients[1]? = some (.getFeed annArgs, .ret (.items [annImage.description])) ∧
    ∃ shown, Shows (.items [annImage.description]) shown ∧ shown.length ≤ 10 ∧
      (∀ picture ∈ shown, Began c' (.postImage (upload picture.1 picture.2)) ∧
        (bytes "ann", bytes picture.1) ∈ c'.state.subscriptions) ∧
      ∀ m picture, Answered c m (upload picture.1 picture.2) →
        (bytes "ann", bytes picture.1) ∈ c.state.subscriptions →
        picture ∈ shown ∨ shown.length = 10 := by
  have hupload : annPost = .postImage (upload "ann" [97]) := rfl
  have hbefore := (Pool.run_alone (fun _ => faulty risingClock) annPost_faulty).head
    (.arrive _ annPost)
  have hrun : Pool.Run (fun _ => faulty risingClock) Request.handleRequest _ _ :=
    Pool.run_of_execution (fun _ => faulty risingClock) annFeed_faulty rfl (Pool.arrive_new
      Request.handleRequest (⟨annPosted, [(annPost, .ret .posted)]⟩ : Server) (.getFeed annArgs))
  have hanswered : Answered (⟨annPosted, [(annPost, .ret .posted)]⟩ : Server) 0
      (upload "ann" [97]) := rfl
  have hclean : ∀ c ∈ "ann".toList, isSpecial c = false := by simp [isSpecial]
  refine ⟨_, _, hanswered, by decide, rfl,
    pictures_shown hbefore hrun ?_ rfl (by decide)⟩
  rintro args ⟨p, hp⟩
  rcases List.mem_cons.mp hp with heq | hp
  · exact ⟨"ann", [97], hclean, Request.postImage.inj ((Prod.mk.inj heq).1.trans hupload)⟩
  · cases (Prod.mk.inj (List.mem_singleton.mp hp)).1

end Example

end Img2Web
