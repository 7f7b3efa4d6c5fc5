import AlRefactor.Declaration.Scope
import AlRefactor.Text.Lowercase

/-!
# Roles of procedures
-/

namespace AlRefactor

/-- What the attributes of a procedure or trigger make of it. -/
inductive Role where
  | method | test | confirmHandler | filterPageHandler | hyperlinkHandler | messageHandler
  | modalPageHandler | pageHandler | reportHandler | requestPageHandler
  | sendNotificationHandler | recallNotificationHandler | sessionSettingsHandler | strMenuHandler
  | eventSubscriber | businessEventPublisher | integrationEventPublisher
deriving DecidableEq, Repr

namespace Role

def name : Role → String
  | .method => "Method" | .test => "Test" | .confirmHandler => "ConfirmHandler"
  | .filterPageHandler => "FilterPageHandler" | .hyperlinkHandler => "HyperlinkHandler"
  | .messageHandler => "MessageHandler" | .modalPageHandler => "ModalPageHandler"
  | .pageHandler => "PageHandler" | .reportHandler => "ReportHandler"
  | .requestPageHandler => "RequestPageHandler"
  | .sendNotificationHandler => "SendNotificationHandler"
  | .recallNotificationHandler => "RecallNotificationHandler"
  | .sessionSettingsHandler => "SessionSettingsHandler" | .strMenuHandler => "StrMenuHandler"
  | .eventSubscriber => "EventSubscriber" | .businessEventPublisher => "BusinessEventPublisher"
  | .integrationEventPublisher => "IntegrationEventPublisher"

/-- What an attribute starts with in lower case, and the role it gives; earlier entries win. -/
def attributeWords : List (String × Role) :=
  [("test", .test), ("confirmhandler", .confirmHandler),
   ("filterpagehandler", .filterPageHandler), ("hyperlinkhandler", .hyperlinkHandler),
   ("messagehandler", .messageHandler), ("modalpagehandler", .modalPageHandler),
   ("pagehandler", .pageHandler), ("reporthandler", .reportHandler),
   ("requestpagehandler", .requestPageHandler),
   ("sendnotificationhandler", .sendNotificationHandler),
   ("recallnotificationhandler", .recallNotificationHandler),
   ("sessionsettingshandler", .sessionSettingsHandler), ("strmenuhandler", .strMenuHandler),
   ("eventsubscriber", .eventSubscriber), ("businessevent", .businessEventPublisher),
   ("integrationevent", .integrationEventPublisher)]

/-- The content of an attribute in lower case and without white space. -/
def normalize (content : Text) : Text :=
  let t := content.trimStart
  (((Text.dropStart? "[" t).getD t).filter fun c => !Text.isSpace c).flatMap Text.lowerChar

def ofAttributes (attributes : List Text) : Role :=
  let normalized := attributes.map normalize
  match attributeWords.find? fun entry => normalized.any fun t : Text => t.startsWith entry.1 with
  | some entry => entry.2
  | none => .method

/-- Business and integration events. -/
def isPublisher : Role → Bool
  | .businessEventPublisher | .integrationEventPublisher => true
  | _ => false

/-- Tests, handlers and subscribers have a fixed list of parameters. -/
def acceptsParameters (r : Role) : Bool := r == .method || r.isPublisher

end Role

namespace Node

def role (n : Node) : Role :=
  Role.ofAttributes ((n.childrenOf NodeKind.memberAttribute).map (·.text))

/-- Role of any node, unless it is neither a procedure nor a trigger. -/
def roleOf (n : Node) : Except Fault Role :=
  if n.kind.isMethod then .ok n.role else .error (.noRole n.kind)

end Node

end AlRefactor
