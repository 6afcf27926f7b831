import Visibility.Main
import Visibility.Proofs.Cache.Answers
import Visibility.Proofs.Cache.Convergence
import Visibility.Proofs.Cache.Deletion
import Visibility.Proofs.Cache.Endings
import Visibility.Proofs.Cache.Failures
import Visibility.Proofs.Cache.Order
import Visibility.Proofs.Cache.Overtaking
import Visibility.Proofs.Cache.Readiness
import Visibility.Proofs.Cache.Visiting
import Visibility.Proofs.Cache.Watching
import Visibility.Proofs.ClusterHash.Shared
import Visibility.Proofs.Endpoint.Serving
import Visibility.Proofs.Label.Agreement
import Visibility.Proofs.Label.Composition
import Visibility.Proofs.Label.Parser
import Visibility.Proofs.Rbac.Ref
import Visibility.Proofs.Scope
import Visibility.Proofs.Scope.Resolution
import Visibility.Proofs.Service.ClusterKey
import Visibility.Proofs.Service.EventDriven
import Visibility.Proofs.Service.Launch
import Visibility.Proofs.Service.Publishing
import Visibility.Proofs.Service.Retries
import Visibility.Proofs.Service.RetrySchedule
import Visibility.Proofs.Service.Shutdown
import Visibility.Proofs.Stores.Views
import Visibility.Proofs.Text.Utf8
import Visibility.ReviewApi
import Visibility.Scenario.Run
import Visibility.Table.Lemmas
